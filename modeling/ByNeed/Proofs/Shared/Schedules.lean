/-
What a shared cell comes to does not depend on the schedule.

Take cells whose computations depend on nothing but the outcomes of the cells they force, and only on cells that rank
below their own (`Ranked`). They may handle errors, run code on the spot, force deeply and record events, but they do
not abort, look at cells, make cells or start threads: whether a cell has been evaluated and which number a new one gets
differ from one schedule to another.

What a query comes to (`Answers`) is said without a memory, without threads and without an order. A pool of threads
differs: a cell may be evaluated as the head of a walk, as a link of another thread's walk, or read after a wait.
- `step_coherent`: in every interleaving, stored outcomes are answers, and what a thread is about to hand to its stack
  is right for every frame on it (`Due`).
- `Forcing.coherent_ranked`: such runs are ranked, so that a claim never comes back to a cell of the same thread.
- `lands_of_answers`: a single thread that starts over the same cells comes to the answer.
- `schedule_irrelevant`: what a thread gets in any interleaving, it gets when it runs alone.
-/
import ByNeed.Proofs.Shared.Waiting

namespace ByNeed

variable {T C V α : Type}

/-! ## What a query comes to -/

/-- what an outcome is wanted of -/
inductive Query (T C V : Type) where
  | cell (r : Ref)
  | comp (c : Comp T C V (Next C V))
  /-- everything reachable from the cells `work`, and then `top` -/
  | parts (top : V) (work : List Ref)

/-- what a query comes to over the cells of `h`, which stay as they are -/
inductive Answers (E : Engine T C V) (h : Heap ThreadId C V) : Query T C V → Outcome V → Prop where
  | stored {r : Ref} {o : Outcome V} (houtcome : h.outcome? r = some o) : Answers E h (.cell r) o
  | missing {r : Ref} (houtside : h[r]? = none) : Answers E h (.cell r) (.error .blackHole)
  | opened {r : Ref} {c : C} {o : Outcome V} (hcode : h[r]? = some (.pending c))
      (hbody : Answers E h (.comp (E.body c)) o) : Answers E h (.cell r) o
  | value (v : V) : Answers E h (.comp (.done (.value v))) (.ok v)
  | fail (e : EvalError) : Answers E h (.comp (.fail e)) (.error e)
  | cell {r : Ref} {o : Outcome V} (htail : Answers E h (.cell r) o) : Answers E h (.comp (.done (.cell r))) o
  | code {c : C} {o : Outcome V} (htail : Answers E h (.comp (E.body c)) o) :
      Answers E h (.comp (.done (.code c))) o
  | force {r : Ref} {k : Outcome V → Comp T C V (Next C V)} {a o : Outcome V} (hfirst : Answers E h (.cell r) a)
      (hrest : Answers E h (.comp (k a)) o) : Answers E h (.comp (.force r k)) o
  | eval {c : C} {k : Outcome V → Comp T C V (Next C V)} {a o : Outcome V}
      (hfirst : Answers E h (.comp (E.body c)) a) (hrest : Answers E h (.comp (k a)) o) :
      Answers E h (.comp (.eval c k)) o
  | normalize {v : V} {k : Outcome V → Comp T C V (Next C V)} {a o : Outcome V}
      (hfirst : Answers E h (.parts v (E.parts v)) a) (hrest : Answers E h (.comp (k a)) o) :
      Answers E h (.comp (.normalize v k)) o
  | emit {event : String} {k : Unit → Comp T C V (Next C V)} {o : Outcome V}
      (hrest : Answers E h (.comp (k ())) o) : Answers E h (.comp (.emit event k)) o
  | visited (top : V) : Answers E h (.parts top []) (.ok top)
  | visit {top v : V} {r : Ref} {work : List Ref} {o : Outcome V} (hfirst : Answers E h (.cell r) (.ok v))
      (hrest : Answers E h (.parts top (E.parts v ++ work)) o) : Answers E h (.parts top (r :: work)) o
  | stopped {top : V} {r : Ref} {work : List Ref} {e : EvalError} (hfirst : Answers E h (.cell r) (.error e)) :
      Answers E h (.parts top (r :: work)) (.error e)

/-- a cell that deep forcing comes to from the cells `work` -/
inductive Reach (E : Engine T C V) (h : Heap ThreadId C V) (work : List Ref) : Ref → Prop where
  | start {r : Ref} (hmem : r ∈ work) : Reach E h work r
  | next {r q : Ref} {v : V} (hreach : Reach E h work r) (hvalue : Answers E h (.cell r) (.ok v))
      (hpart : q ∈ E.parts v) : Reach E h work q

/-- a computation that depends on nothing but the outcomes of cells in `low`; it goes on with code in `codes`.

One that makes a cell is not of this kind, even if no other thread ever sees the cell: which number the cell gets depends
on how many the other threads have made by then, and the computation may branch on it or return it. -/
def Comp.DependsOn (E : Engine T C V) (h : Heap ThreadId C V) (low : Ref → Prop) (codes : C → Prop) :
    Comp T C V (Next C V) → Prop
  | .done (.value _) | .fail _ => True
  | .done (.cell r) => low r
  | .done (.code c) => codes c
  | .force r k => low r ∧ ∀ o, Answers E h (.cell r) o → (k o).DependsOn E h low codes
  | .eval c k => codes c ∧ ∀ o, Answers E h (.comp (E.body c)) o → (k o).DependsOn E h low codes
  | .normalize v k => (∀ r, Reach E h (E.parts v) r → low r) ∧
      ∀ o, Answers E h (.parts v (E.parts v)) o → (k o).DependsOn E h low codes
  | .emit _ k => (k ()).DependsOn E h low codes
  | .abort _ | .peek _ _ | .ready _ _ | .delay _ _ | .fork _ _ _ => False

/-- a query that depends on nothing but the outcomes of cells in `low` -/
def Query.DependsOn (E : Engine T C V) (h : Heap ThreadId C V) (low : Ref → Prop) : Query T C V → Prop
  | cell r => low r
  | comp c => ∃ codes : C → Prop, (∀ c', codes c' → (E.body c').DependsOn E h low codes) ∧ c.DependsOn E h low codes
  | parts _ work => ∀ r, Reach E h work r → low r

/-- the code of every cell depends on nothing but the outcomes of cells that rank below -/
def Ranked [LT α] (E : Engine T C V) (h : Heap ThreadId C V) (rank : Ref → α) : Prop :=
  ∀ (r : Ref) (c : C), h[r]? = some (.pending c) →
    (Query.comp (E.body c)).DependsOn E h fun q => rank q < rank r

def Heap.Unclaimed {O : Type} (h : Heap O C V) : Prop := ∀ (r : Ref) (owner : O), h[r]? ≠ some (.busy owner)

/-- a query is a function: it comes to one answer only -/
theorem Answers.unique {E : Engine T C V} {h : Heap ThreadId C V} {Q : Query T C V} {o o' : Outcome V}
    (ha : Answers E h Q o) (ha' : Answers E h Q o') : o = o' := by
  induction ha generalizing o' with
  | stored houtcome =>
    cases ha' with
    | stored houtcome' => exact Option.some.inj (houtcome.symm.trans houtcome')
    | missing houtside => simp [Heap.outcome?, houtside] at houtcome
    | opened hcode hbody => simp [Heap.outcome?, hcode, Cell.outcome?] at houtcome
  | missing houtside =>
    cases ha' with
    | stored houtcome => simp [Heap.outcome?, houtside] at houtcome
    | missing houtside' => rfl
    | opened hcode hbody => rw [houtside] at hcode; cases hcode
  | opened hcode hbody ih =>
    cases ha' with
    | stored houtcome => simp [Heap.outcome?, hcode, Cell.outcome?] at houtcome
    | missing houtside => rw [houtside] at hcode; cases hcode
    | opened hcode' hbody' =>
      rw [hcode] at hcode'
      cases hcode'
      exact ih hbody'
  | value v => cases ha'; rfl
  | fail e => cases ha'; rfl
  | cell htail ih => cases ha' with | cell htail' => exact ih htail'
  | code htail ih => cases ha' with | code htail' => exact ih htail'
  | force hfirst hrest ihFirst ihRest =>
    cases ha' with
    | force hfirst' hrest' =>
      cases ihFirst hfirst'
      exact ihRest hrest'
  | eval hfirst hrest ihFirst ihRest =>
    cases ha' with
    | eval hfirst' hrest' =>
      cases ihFirst hfirst'
      exact ihRest hrest'
  | normalize hfirst hrest ihFirst ihRest =>
    cases ha' with
    | normalize hfirst' hrest' =>
      cases ihFirst hfirst'
      exact ihRest hrest'
  | emit hrest ih => cases ha' with | emit hrest' => exact ih hrest'
  | visited top => cases ha'; rfl
  | visit hfirst hrest ihFirst ihRest =>
    cases ha' with
    | visit hfirst' hrest' =>
      cases ihFirst hfirst'
      exact ihRest hrest'
    | stopped hfirst' => cases ihFirst hfirst'
  | stopped hfirst ih =>
    cases ha' with
    | visit hfirst' hrest' => cases ih hfirst'
    | stopped hfirst' => cases ih hfirst'; rfl

/-- after a cell has been visited, its parts stand in its place -/
theorem Reach.visited {E : Engine T C V} {h : Heap ThreadId C V} {r q : Ref} {work : List Ref} {v : V}
    (hvalue : Answers E h (.cell r) (.ok v)) (hreach : Reach E h (E.parts v ++ work) q) : Reach E h (r :: work) q := by
  induction hreach with
  | start hmem =>
    rcases List.mem_append.1 hmem with hpart | hlater
    · exact .next (.start List.mem_cons_self) hvalue hpart
    · exact .start (List.mem_cons_of_mem r hlater)
  | next hreach hvalue hpart ih => exact .next ih hvalue hpart

/-! ## What is handed to a stack -/

/-- a query depends on `low` only, and whatever it comes to is `due` -/
def Owes (E : Engine T C V) (h : Heap ThreadId C V) (low : Ref → Prop) (due : Outcome V → Prop) (Q : Query T C V) :
    Prop :=
  Q.DependsOn E h low ∧ ∀ o, Answers E h Q o → due o

section

variable {E : Engine T C V} {h : Heap ThreadId C V} {low : Ref → Prop} {due : Outcome V → Prop} {r : Ref} {c : C}
  {k : Outcome V → Comp T C V (Next C V)}

theorem Owes.value {v : V} (howes : Owes E h low due (.comp (.done (.value v)))) : due (.ok v) := howes.2 _ (.value v)

theorem Owes.fail {e : EvalError} (howes : Owes E h low due (.comp (.fail e))) : due (.error e) := howes.2 _ (.fail e)

theorem Owes.cell (howes : Owes E h low due (.comp (.done (.cell r)))) : Owes E h low due (.cell r) := by
  obtain ⟨⟨codes, -, hr⟩, hdue⟩ := howes
  exact ⟨hr, fun o ha => hdue o (.cell ha)⟩

theorem Owes.code (howes : Owes E h low due (.comp (.done (.code c)))) : Owes E h low due (.comp (E.body c)) := by
  obtain ⟨⟨codes, hclosed, hc⟩, hdue⟩ := howes
  exact ⟨⟨codes, hclosed, hclosed c hc⟩, fun o ha => hdue o (.code ha)⟩

/-- a computation that forces a cell owes that cell to its continuation -/
theorem Owes.force (howes : Owes E h low due (.comp (.force r k))) :
    Owes E h low (fun o => Owes E h low due (.comp (k o))) (.cell r) := by
  obtain ⟨⟨codes, hclosed, hr, hk⟩, hdue⟩ := howes
  exact ⟨hr, fun o ha => ⟨⟨codes, hclosed, hk o ha⟩, fun x hb => hdue x (.force ha hb)⟩⟩

theorem Owes.eval (howes : Owes E h low due (.comp (.eval c k))) :
    Owes E h low (fun o => Owes E h low due (.comp (k o))) (.comp (E.body c)) := by
  obtain ⟨⟨codes, hclosed, hc, hk⟩, hdue⟩ := howes
  exact ⟨⟨codes, hclosed, hclosed c hc⟩, fun o ha => ⟨⟨codes, hclosed, hk o ha⟩, fun x hb => hdue x (.eval ha hb)⟩⟩

theorem Owes.normalize {v : V} (howes : Owes E h low due (.comp (.normalize v k))) :
    Owes E h low (fun o => Owes E h low due (.comp (k o))) (.parts v (E.parts v)) := by
  obtain ⟨⟨codes, hclosed, hr, hk⟩, hdue⟩ := howes
  exact ⟨hr, fun o ha => ⟨⟨codes, hclosed, hk o ha⟩, fun x hb => hdue x (.normalize ha hb)⟩⟩

theorem Owes.emit {event : String} {k : Unit → Comp T C V (Next C V)}
    (howes : Owes E h low due (.comp (.emit event k))) : Owes E h low due (.comp (k ())) := by
  obtain ⟨⟨codes, hclosed, hk⟩, hdue⟩ := howes
  exact ⟨⟨codes, hclosed, hk⟩, fun o ha => hdue o (.emit ha)⟩

end

/-- ranks below the cell that the walk on top of the stack claimed last -/
def Below [LT α] (rank : Ref → α) (stack : List (Frame T C V)) (r : Ref) : Prop :=
  ∀ q ∈ (stack.flatMap Frame.claimed).head?, rank r < rank q

/-- the outcome may be handed to the stack: the cells of its walks come to it, and the computations that wait for it
go on to what is due further down; at the bottom it is `final` -/
def Due [LT α] (E : Engine T C V) (h : Heap ThreadId C V) (rank : Ref → α) (final : Outcome V → Prop) :
    List (Frame T C V) → Outcome V → Prop
  | [], o => final o
  | .walk rs :: stack, o => (∀ r ∈ rs, Answers E h (.cell r) o) ∧ Due E h rank final stack o
  | .resume k :: stack, o => Owes E h (Below rank stack) (fun x => Due E h rank final stack x) (.comp (k o))
  | .visit top work :: stack, .ok v =>
    Owes E h (Below rank stack) (fun x => Due E h rank final stack x) (.parts top (E.parts v ++ work))
  | .visit _ _ :: stack, .error e => Due E h rank final stack (.error e)

/-- what a thread does next is right for its stack -/
def Thread.Coherent [LT α] (E : Engine T C V) (h : Heap ThreadId C V) (rank : Ref → α) (final : Outcome V → Prop)
    (t : Thread T C V) : Prop :=
  let due := Due E h rank final t.stack
  let owes := Owes E h (Below rank t.stack) due
  match t.phase with
  | .act (.run c) => owes (.comp c)
  | .act (.ended (.ok (.cell r))) | .act (.demand r) => owes (.cell r)
  | .act (.ended (.ok (.value v))) => due (.ok v)
  | .act (.ended (.error e)) => due (.error e)
  | .act (.give o) => due o
  | .act (.traverse top work) => owes (.parts top work)
  | .publish o cells => (∀ r ∈ cells, Answers E h (.cell r) o) ∧ due o
  | .act (.unwind _) | .poison _ _ | .join _ _ => False

/-- the cells of `h` against those of `h₀`: code is left alone, and outcomes are answers -/
structure Knows (E : Engine T C V) (h₀ h : Heap ThreadId C V) : Prop where
  size : h.size = h₀.size
  code : ∀ (r : Ref) (c : C), h[r]? = some (.pending c) → h₀[r]? = some (.pending c)
  outcome : ∀ r o, h.outcome? r = some o → Answers E h₀ (.cell r) o

namespace Knows

variable {E : Engine T C V} {h₀ h : Heap ThreadId C V} {me : ThreadId} {r : Ref} {o : Outcome V}

theorem refl (E : Engine T C V) (h : Heap ThreadId C V) : Knows E h h :=
  ⟨rfl, fun _ _ hc => hc, fun _ _ ho => .stored ho⟩

theorem claimed (hknows : Knows E h₀ h) {c : C} (hc : h[r]? = some (.pending c)) :
    Knows E h₀ (h.setIfInBounds r (.busy me)) := by
  refine ⟨by simpa using hknows.size, fun i c' hi => ?_, fun i o hi => ?_⟩
  · rw [Heap.getElem?_claimed hc] at hi
    split_ifs at hi
    · cases hi
    · exact hknows.code i c' hi
  · rw [Heap.outcome?, Heap.getElem?_claimed hc] at hi
    split_ifs at hi
    · cases hi
    · exact hknows.outcome i o hi

theorem settled (hknows : Knows E h₀ h) (hanswer : Answers E h₀ (.cell r) o) : Knows E h₀ (h.settle o r) := by
  refine ⟨by simpa using hknows.size, fun i c hi => ?_, fun i x hi => ?_⟩
  · rw [Heap.getElem?_settle] at hi
    split_ifs at hi
    · exact absurd (Option.some.inj hi) (Cell.ofOutcome_ne_pending o c)
    · exact hknows.code i c hi
  · rw [Heap.outcome?, Heap.getElem?_settle] at hi
    split_ifs at hi with hir
    · rw [Option.bind_some, Cell.outcome?_ofOutcome] at hi
      cases hi
      rw [hir.1]
      exact hanswer
    · exact hknows.outcome i x hi

/-- a claim of a cell that is not the claimant's own hands out the first code, waits, or gives the answer -/
theorem claim_cases (hknows : Knows E h₀ h) (hnot : h[r]? ≠ some (.busy me)) :
    (∃ c, h₀[r]? = some (.pending c) ∧ h.claimBy me r = (some (.granted c), h.setIfInBounds r (.busy me)) ∧
      Knows E h₀ (h.setIfInBounds r (.busy me))) ∨
    (∃ owner, h[r]? = some (.busy owner) ∧ owner ≠ me ∧ h.claimBy me r = (none, h)) ∨
    ∃ o, h.claimBy me r = (some (.outcome o), h) ∧ Answers E h₀ (.cell r) o := by
  rcases h.claimBy_cases me r with ⟨c, hc, heq⟩ | hwait | ⟨o, heq, hstored | ⟨rfl, hown | houtside⟩⟩
  · exact .inl ⟨c, hknows.code r c hc, heq, hknows.claimed hc⟩
  · exact .inr (.inl hwait)
  · exact .inr (.inr ⟨o, heq, hknows.outcome r o hstored⟩)
  · exact absurd hown hnot
  · refine .inr (.inr ⟨_, heq, .missing ?_⟩)
    rw [Array.getElem?_eq_none_iff] at houtside ⊢
    rw [← hknows.size]
    exact houtside

end Knows

namespace Pool

/-- stored outcomes are answers, and every thread is on the way to the answer of what it was asked -/
structure Coherent [LT α] (E : Engine T C V) (h₀ : Heap ThreadId C V) (rank : Ref → α)
    (asked : ThreadId → Option (Query T C V)) (p : Pool T C V) : Prop where
  knows : Knows E h₀ p.heap
  threads : ∀ (t : ThreadId) (thread : Thread T C V), p.threads[t]? = some thread →
    thread.Coherent E h₀ rank fun o => ∀ Q, asked t = some Q → Answers E h₀ Q o

section

variable [LT α] {E : Engine T C V} {h₀ : Heap ThreadId C V} {rank : Ref → α}
  {asked : ThreadId → Option (Query T C V)} {p : Pool T C V} {me : ThreadId} {phase : Phase T C V}
  {stack : List (Frame T C V)}

abbrev DueTo (E : Engine T C V) (h₀ : Heap ThreadId C V) (rank : Ref → α)
    (asked : ThreadId → Option (Query T C V)) (t : ThreadId) (stack : List (Frame T C V)) (o : Outcome V) : Prop :=
  Due E h₀ rank (fun x => ∀ Q, asked t = some Q → Answers E h₀ Q x) stack o

/-- only `me` and the cells change -/
theorem Coherent.put (hco : Coherent E h₀ rank asked p) {heap : Heap ThreadId C V} {events : List String}
    (hknows : Knows E h₀ heap)
    (hright : (⟨phase, stack⟩ : Thread T C V).Coherent E h₀ rank fun o => ∀ Q, asked me = some Q → Answers E h₀ Q o) :
    Coherent E h₀ rank asked (Pool.put ⟨heap, events, p.threads⟩ me phase stack) := by
  refine ⟨hknows, fun t thread ht => ?_⟩
  rw [Pool.put, Array.getElem?_setIfInBounds] at ht
  split_ifs at ht with hme hlt
  · subst hme
    cases ht
    exact hright
  · exact hco.threads t thread ht

theorem request_coherent (hco : Coherent E h₀ rank asked p) {c : Comp T C V (Next C V)}
    (h : p.threads[me]? = some ⟨.act (.run c), stack⟩) : Coherent E h₀ rank asked (request E me p stack c) := by
  have howes : Owes E h₀ (Below rank stack) (DueTo E h₀ rank asked me stack) (.comp c) := hco.threads me _ h
  cases c with
  | done next =>
    cases next with
    | value v => exact hco.put hco.knows howes.value
    | cell r => exact hco.put hco.knows howes.cell
    | code c => exact hco.put hco.knows howes.code
  | fail e => exact hco.put hco.knows howes.fail
  | force r k => exact hco.put hco.knows howes.force
  | eval c k => exact hco.put hco.knows howes.eval
  | normalize v k => exact hco.put hco.knows howes.normalize
  | emit event k => exact hco.put hco.knows howes.emit
  | abort text => exact absurd howes.1 (by simp [Query.DependsOn, Comp.DependsOn])
  | peek r k => exact absurd howes.1 (by simp [Query.DependsOn, Comp.DependsOn])
  | ready v k => exact absurd howes.1 (by simp [Query.DependsOn, Comp.DependsOn])
  | delay c k => exact absurd howes.1 (by simp [Query.DependsOn, Comp.DependsOn])
  | fork permit c k => exact absurd howes.1 (by simp [Query.DependsOn, Comp.DependsOn])

/-- the walk on top of the stack is closed with an outcome that is due -/
theorem Coherent.close (hco : Coherent E h₀ rank asked p) {claimed : List Ref} {o : Outcome V}
    (hdue : DueTo E h₀ rank asked me (.walk claimed :: stack) o) :
    Coherent E h₀ rank asked (p.put me (.publish o claimed.reverse) stack) := by
  refine hco.put hco.knows ⟨fun r hr => ?_, hdue.2⟩
  exact hdue.1 r (List.mem_reverse.1 hr)

/-- code that was handed out runs for its cell and for the walk that it continues -/
theorem Coherent.granted (hco : Coherent E h₀ rank asked p) (hranked : Ranked E h₀ rank) {r : Ref} {c : C}
    (hcode : h₀[r]? = some (.pending c)) (hknows : Knows E h₀ (p.heap.setIfInBounds r (.busy me))) {claimed : List Ref}
    (hdue : ∀ o, Answers E h₀ (.cell r) o → (∀ q ∈ claimed, Answers E h₀ (.cell q) o) ∧
      DueTo E h₀ rank asked me stack o) :
    Coherent E h₀ rank asked (Pool.putAct ⟨p.heap.setIfInBounds r (.busy me), p.events, p.threads⟩ me
      (.run (E.body c)) (.walk (r :: claimed) :: stack)) := by
  have hlow : Below rank (.walk (r :: claimed) :: stack) = fun q => rank q < rank r := by
    funext q
    simp [Below, Frame.claimed]
  refine hco.put hknows ⟨?_, fun o hbody => ?_⟩
  · rw [hlow]
    exact hranked r c hcode
  · have hanswer : Answers E h₀ (.cell r) o := .opened hcode hbody
    obtain ⟨hlinks, hrest⟩ := hdue o hanswer
    exact ⟨List.forall_mem_cons.2 ⟨hanswer, hlinks⟩, hrest⟩

theorem conclude_coherent (hco : Coherent E h₀ rank asked p) (hranked : Ranked E h₀ rank) {t : Outcome (Tail V)}
    (h : p.threads[me]? = some ⟨.act (.ended t), stack⟩)
    (hnot : ∀ r, (⟨.act (.ended t), stack⟩ : Thread T C V).wanted? = some r → p.heap[r]? ≠ some (.busy me)) :
    Coherent E h₀ rank asked (conclude E me p t stack) := by
  have hright := hco.threads me _ h
  match stack, t with
  | .walk claimed :: stack, .error e => exact hco.close hright
  | .walk claimed :: stack, .ok (.value v) => exact hco.close hright
  | .walk claimed :: stack, .ok (.cell r) =>
    have howes : Owes E h₀ (Below rank (.walk claimed :: stack)) (DueTo E h₀ rank asked me (.walk claimed :: stack))
      (.cell r) := hright
    rcases hco.knows.claim_cases (hnot r rfl) with ⟨c, hcode, heq, hknows⟩ | ⟨owner, -, -, heq⟩ | ⟨o, heq, hanswer⟩
    · simp only [conclude, heq]
      exact hco.granted hranked hcode hknows howes.2
    · simp only [conclude, heq]
      exact hco
    · simp only [conclude, heq]
      exact hco.close (howes.2 o hanswer)
  | [], .error e | .resume _ :: _, .error e | .visit _ _ :: _, .error e => exact hco.put hco.knows hright
  | [], .ok t | .resume _ :: _, .ok t | .visit _ _ :: _, .ok t => cases t <;> exact hco.put hco.knows hright

theorem deliver_coherent (hco : Coherent E h₀ rank asked p) {o : Outcome V}
    (h : p.threads[me]? = some ⟨.act (.give o), stack⟩) : Coherent E h₀ rank asked (deliver E me p o stack) := by
  have hdue : DueTo E h₀ rank asked me stack o := hco.threads me _ h
  match stack, o with
  | [], o => exact hco.put hco.knows hdue
  | .resume k :: stack, o => exact hco.put hco.knows hdue
  | .visit top work :: stack, .ok v => exact hco.put hco.knows hdue
  | .visit top work :: stack, .error e => exact hco.put hco.knows hdue
  | .walk claimed :: stack, o => exact hco.close hdue

theorem demand_coherent (hco : Coherent E h₀ rank asked p) (hranked : Ranked E h₀ rank) {r : Ref}
    (h : p.threads[me]? = some ⟨.act (.demand r), stack⟩) (hnot : p.heap[r]? ≠ some (.busy me)) :
    Coherent E h₀ rank asked (demand E me p r stack) := by
  have howes : Owes E h₀ (Below rank stack) (DueTo E h₀ rank asked me stack) (.cell r) := hco.threads me _ h
  rcases hco.knows.claim_cases hnot with ⟨c, hcode, heq, hknows⟩ | ⟨owner, -, -, heq⟩ | ⟨o, heq, hanswer⟩
  · simp only [demand, heq]
    refine hco.granted hranked hcode hknows fun o hanswer => ⟨by simp, howes.2 o hanswer⟩
  · simp only [demand, heq]
    exact hco
  · simp only [demand, heq]
    exact hco.put hco.knows (howes.2 o hanswer)

/-- deep forcing goes on with the next cell, or is over -/
theorem traverse_coherent (hco : Coherent E h₀ rank asked p) {top : V} {work : List Ref}
    (h : p.threads[me]? = some ⟨.act (.traverse top work), stack⟩) :
    Coherent E h₀ rank asked (match work with
      | [] => p.putAct me (.give (.ok top)) stack
      | r :: work => p.putAct me (.demand r) (.visit top work :: stack)) := by
  have howes : Owes E h₀ (Below rank stack) (DueTo E h₀ rank asked me stack) (.parts top work) := hco.threads me _ h
  cases work with
  | nil => exact hco.put hco.knows (howes.2 _ (.visited top))
  | cons r work =>
    refine hco.put hco.knows ⟨howes.1 r (.start List.mem_cons_self), fun o hanswer => ?_⟩
    cases o with
    | ok v =>
      exact ⟨fun q hreach => howes.1 q (hreach.visited hanswer), fun x hrest => howes.2 x (.visit hanswer hrest)⟩
    | error e => exact howes.2 _ (.stopped hanswer)

/-- **A move keeps the pool coherent**, as long as no thread comes back to a cell of its own. -/
theorem step_coherent (hco : Coherent E h₀ rank asked p) (hranked : Ranked E h₀ rank)
    (hnot : ∀ t r, p.threads[t]?.bind Thread.wanted? = some r → p.heap[r]? ≠ some (.busy t)) (me : ThreadId) :
    Coherent E h₀ rank asked (p.step E me) := by
  unfold step
  cases h : p.threads[me]? with
  | none => exact hco
  | some t =>
    obtain ⟨phase, stack⟩ := t
    have hright := hco.threads me _ h
    match phase with
    | .act (.run c) => exact request_coherent hco h
    | .act (.ended t) => exact conclude_coherent hco hranked h fun r hwant => hnot me r (by simpa [h] using hwant)
    | .act (.give o) => exact deliver_coherent hco h
    | .act (.demand r) => exact demand_coherent hco hranked h (hnot me r (by simp [h, Thread.wanted?]))
    | .act (.traverse top []) | .act (.traverse top (r :: work)) => exact traverse_coherent hco h
    | .publish o [] => exact hco.put hco.knows hright.2
    | .publish o (r :: cells) =>
      obtain ⟨hanswers, hdue⟩ := hright
      rw [List.forall_mem_cons] at hanswers
      exact hco.put (hco.knows.settled hanswers.1) ⟨hanswers.2, hdue⟩
    | .act (.unwind text) => exact hright.elim
    | .poison text [] | .poison text (r :: cells) => exact hright.elim
    | .join child k => exact hright.elim

/-- what a thread of a coherent pool is about to claim ranks below the cell it runs for -/
theorem Coherent.descends (hco : Coherent E h₀ rank asked p) : p.Descends rank := by
  intro thread hthread q hq r hr
  obtain ⟨t, ht⟩ := Array.mem_iff_getElem?.1 hthread
  have hright := hco.threads t thread ht
  rcases Thread.wanted_cases hr with ⟨stack, rfl⟩ | ⟨claimed, stack, rfl⟩
  · exact hright.1 q hq
  · exact hright.1 q hq

end

end Pool

/-! ## Threads that are asked one query after another -/

/-- how a thread begins with a query -/
def Query.control : Query T C V → Control T C V
  | cell r => .demand r
  | comp c => .run c
  | parts top work => .traverse top work

namespace Pool

/-- any interleaving of threads over the cells of `h₀`. A thread starts with a query, and when it has finished it may be
asked another one; `asked` says what each thread was asked last. -/
inductive Forcing (E : Engine T C V) (h₀ : Heap ThreadId C V) :
    (ThreadId → Option (Query T C V)) → Pool T C V → Prop where
  | start : Forcing E h₀ (fun _ => none) ⟨h₀, [], #[]⟩
  | step {asked : ThreadId → Option (Query T C V)} {p : Pool T C V} (hrun : Forcing E h₀ asked p) (t : ThreadId) :
      Forcing E h₀ asked (p.step E t)
  | spawn {asked : ThreadId → Option (Query T C V)} {p : Pool T C V} (hrun : Forcing E h₀ asked p) (Q : Query T C V)
      (hpure : Q.DependsOn E h₀ fun _ => True) :
      Forcing E h₀ (Function.update asked p.threads.size (some Q))
        ⟨p.heap, p.events, p.threads.push ⟨.act Q.control, []⟩⟩
  | again {asked : ThreadId → Option (Query T C V)} {p : Pool T C V} (hrun : Forcing E h₀ asked p) (t : ThreadId)
      (hfinished : (p.result? t).isSome) (Q : Query T C V) (hpure : Q.DependsOn E h₀ fun _ => True) :
      Forcing E h₀ (Function.update asked t (some Q)) (p.putAct t Q.control [])

theorem fresh_of_unclaimed {h₀ : Heap ThreadId C V} (hcalm : h₀.Unclaimed) :
    Fresh (⟨h₀, [], #[]⟩ : Pool T C V) :=
  ⟨hcalm, fun t => by simp [chains]⟩

/-- at the bottom of the stack there is no cell to rank below -/
theorem coherent_control [LT α] {E : Engine T C V} {h₀ : Heap ThreadId C V} (rank : Ref → α) {Q : Query T C V}
    (hpure : Q.DependsOn E h₀ fun _ => True) :
    (⟨.act Q.control, []⟩ : Thread T C V).Coherent E h₀ rank fun o => ∀ Q', some Q = some Q' → Answers E h₀ Q' o := by
  have hlow : Below rank ([] : List (Frame T C V)) = fun _ => True := by
    funext q
    simp [Below]
  have howes : Owes E h₀ (Below rank ([] : List (Frame T C V)))
      (Due E h₀ rank (fun o => ∀ Q', some Q = some Q' → Answers E h₀ Q' o) []) Q := by
    refine ⟨by rw [hlow]; exact hpure, fun o hanswer Q' hQ => ?_⟩
    cases hQ
    exact hanswer
  cases Q with
  | cell r => exact howes
  | comp c => exact howes
  | parts top work => exact howes

namespace Forcing

variable [Preorder α] {E : Engine T C V} {h₀ : Heap ThreadId C V} {rank : Ref → α}
  {asked : ThreadId → Option (Query T C V)} {p : Pool T C V}

/-- every such run is ranked and keeps the pool coherent; each of the two needs the other up to the last move -/
theorem coherent_ranked (hrun : Forcing E h₀ asked p) (hcalm : h₀.Unclaimed) (hranked : Ranked E h₀ rank) :
    Coherent E h₀ rank asked p ∧ RankedRun E rank ⟨h₀, [], #[]⟩ p := by
  have hfresh := fresh_of_unclaimed (T := T) hcalm
  induction hrun with
  | start => exact ⟨⟨.refl E h₀, by simp⟩, .refl⟩
  | step hrun t ih =>
    obtain ⟨hco, hbefore⟩ := ih
    -- no thread waits for itself: that is what the ranks up to here are for
    have hco' := step_coherent hco hranked (fun t r hwant => not_own_of_wanted hfresh hbefore hwant) t
    exact ⟨hco', hbefore.tail ⟨.step t, hco'.descends⟩⟩
  | @spawn asked p hrun Q hpure ih =>
    obtain ⟨hco, hbefore⟩ := ih
    have hco' : Coherent E h₀ rank (Function.update asked p.threads.size (some Q))
        ⟨p.heap, p.events, p.threads.push ⟨.act Q.control, []⟩⟩ := by
      refine ⟨hco.knows, fun t thread ht => ?_⟩
      rw [Array.getElem?_push] at ht
      split_ifs at ht with hnew
      · subst hnew
        cases ht
        rw [Function.update_self]
        exact coherent_control rank hpure
      · rw [Function.update_of_ne hnew]
        exact hco.threads t thread ht
    exact ⟨hco', hbefore.tail ⟨.spawn Q.control, hco'.descends⟩⟩
  | @again asked p hrun t hfinished Q hpure ih =>
    obtain ⟨hco, hbefore⟩ := ih
    have hco' : Coherent E h₀ rank (Function.update asked t (some Q)) (p.putAct t Q.control []) := by
      refine ⟨hco.knows, fun u thread hu => ?_⟩
      rw [putAct, Pool.put, Array.getElem?_setIfInBounds] at hu
      split_ifs at hu with ht hlt
      · subst ht
        cases hu
        rw [Function.update_self]
        exact coherent_control rank hpure
      · rw [Function.update_of_ne (Ne.symm ht)]
        exact hco.threads u thread hu
    exact ⟨hco', hbefore.tail ⟨.again t hfinished Q.control, hco'.descends⟩⟩

/-- the threads move in the order of a list -/
theorem steps (hrun : Forcing E h₀ asked p) (schedule : List ThreadId) :
    Forcing E h₀ asked (schedule.foldl (fun p t => p.step E t) p) := by
  induction schedule generalizing p with
  | nil => exact hrun
  | cons t schedule ih => exact ih (hrun.step t)

/-- a thread is asked only what depends on outcomes alone -/
theorem pure (hrun : Forcing E h₀ asked p) {t : ThreadId} {Q : Query T C V} (hQ : asked t = some Q) :
    Q.DependsOn E h₀ fun _ => True := by
  induction hrun generalizing t with
  | start => cases hQ
  | step hrun u ih => exact ih hQ
  | @spawn asked p hrun Q' hpure ih =>
    by_cases hnew : t = p.threads.size
    · rw [hnew, Function.update_self] at hQ
      cases hQ
      exact hpure
    · rw [Function.update_of_ne hnew] at hQ
      exact ih hQ
  | @again asked p hrun u hfinished Q' hpure ih =>
    by_cases hu : t = u
    · rw [hu, Function.update_self] at hQ
      cases hQ
      exact hpure
    · rw [Function.update_of_ne hu] at hQ
      exact ih hQ

/-- the result of a thread is the answer to what it was asked -/
theorem answers (hrun : Forcing E h₀ asked p) (hcalm : h₀.Unclaimed) (hranked : Ranked E h₀ rank) {t : ThreadId}
    {Q : Query T C V} {x : Except String (Outcome V)} (hQ : asked t = some Q) (hx : p.result? t = some x) :
    ∃ o, x = .ok o ∧ Answers E h₀ Q o := by
  obtain ⟨thread, ht, hres⟩ := Option.bind_eq_some_iff.1 hx
  have hright := (hrun.coherent_ranked hcalm hranked).1.threads t thread ht
  rcases Thread.result_cases hres with ⟨o, rfl, rfl⟩ | ⟨text, rfl, rfl⟩
  · exact ⟨o, rfl, hright Q hQ⟩
  · exact hright.elim

end Forcing

/-! ## A thread on its own -/

/-- thread 0, the only one, moves -/
abbrev Solo (E : Engine T C V) : Pool T C V → Pool T C V → Prop :=
  Relation.ReflTransGen fun p q => q = p.step E 0 ∧ p.threads.size = 1

/-- the stack that gets the outcome of code: a walk on top of it is over then -/
def landing : List (Frame T C V) → List (Frame T C V)
  | .walk _ :: stack => stack
  | stack => stack

/-- a single thread in this phase comes to hand `o` to `stack'` -/
def Arrives (E : Engine T C V) (h₀ : Heap ThreadId C V) (phase : Phase T C V) (stack : List (Frame T C V))
    (o : Outcome V) (stack' : List (Frame T C V)) : Prop :=
  ∀ asked p, Forcing E h₀ asked p → p.threads = #[⟨phase, stack⟩] →
    ∃ q, Solo E p q ∧ q.threads = #[⟨.act (.give o), stack'⟩]

/-- a single thread comes to `o` with the query, on top of any stack -/
def Lands (E : Engine T C V) (h₀ : Heap ThreadId C V) : Query T C V → Outcome V → Prop
  | .cell r, o => ∀ stack, Arrives E h₀ (.act (.demand r)) stack o stack ∧
      Arrives E h₀ (.act (.ended (.ok (.cell r)))) stack o (landing stack)
  | .comp c, o => ∀ stack, Arrives E h₀ (.act (.run c)) stack o (landing stack)
  | .parts top work, o => ∀ stack, Arrives E h₀ (.act (.traverse top work)) stack o stack

section

variable {E : Engine T C V} {h₀ : Heap ThreadId C V} {phase phase' : Phase T C V}
  {stack stack' stack'' : List (Frame T C V)} {a o : Outcome V}

theorem Forcing.solo {asked : ThreadId → Option (Query T C V)} {p q : Pool T C V} (hrun : Forcing E h₀ asked p)
    (hsolo : Solo E p q) : Forcing E h₀ asked q := by
  induction hsolo with
  | refl => exact hrun
  | tail hbefore hlast ih =>
    rw [hlast.1]
    exact ih.step 0

theorem arrives_refl : Arrives E h₀ (.act (.give o)) stack o stack := fun _ p _ hthreads => ⟨p, .refl, hthreads⟩

theorem Arrives.trans (hfirst : Arrives E h₀ phase stack a stack')
    (hrest : Arrives E h₀ (.act (.give a)) stack' o stack'') : Arrives E h₀ phase stack o stack'' := by
  intro asked p hrun hthreads
  obtain ⟨q, hsolo, hthreads'⟩ := hfirst asked p hrun hthreads
  obtain ⟨q', hsolo', hthreads''⟩ := hrest asked q (hrun.solo hsolo) hthreads'
  exact ⟨q', hsolo.trans hsolo', hthreads''⟩

/-- one move from a given pool first -/
theorem Arrives.after {asked : ThreadId → Option (Query T C V)} {p : Pool T C V} {thread : Thread T C V}
    (hrest : Arrives E h₀ phase stack o stack') (hrun : Forcing E h₀ asked p) (hthreads : p.threads = #[thread])
    (hnext : (p.step E 0).threads = #[⟨phase, stack⟩]) :
    ∃ q, Solo E p q ∧ q.threads = #[⟨.act (.give o), stack'⟩] := by
  obtain ⟨q, hsolo, hthreads'⟩ := hrest asked _ (hrun.step 0) hnext
  exact ⟨q, .head ⟨rfl, by simp [hthreads]⟩ hsolo, hthreads'⟩

/-- one move first, which does not depend on the cells -/
theorem Arrives.head (hmove : ∀ heap events, (step E 0 ⟨heap, events, #[⟨phase, stack⟩]⟩).threads = #[⟨phase', stack'⟩])
    (hrest : Arrives E h₀ phase' stack' o stack'') : Arrives E h₀ phase stack o stack'' := by
  intro asked p hrun hthreads
  refine hrest.after hrun hthreads ?_
  rw [← hmove p.heap p.events, ← hthreads]

theorem arrives_publish (o : Outcome V) (cells : List Ref) (stack : List (Frame T C V)) :
    Arrives E h₀ (.publish o cells) stack o stack := by
  induction cells with
  | nil => exact .head (fun _ _ => rfl) arrives_refl
  | cons r cells ih => exact .head (fun _ _ => rfl) ih

/-- code that has ended with an outcome hands it out, after a walk has been published -/
theorem arrives_ended (o : Outcome V) (stack : List (Frame T C V)) :
    Arrives E h₀ (.act (.ended (o.map .value))) stack o (landing stack) := by
  match stack with
  | .walk claimed :: stack =>
    refine .head (fun _ _ => ?_) (arrives_publish o claimed.reverse stack)
    cases o <;> rfl
  | [] | .resume _ :: _ | .visit _ _ :: _ =>
    refine .head (fun _ _ => ?_) arrives_refl
    cases o <;> rfl

/-- a computation that gets the outcome it waits for goes on -/
theorem arrives_resume {k : Outcome V → Comp T C V (Next C V)} (hrest : Lands E h₀ (.comp (k a)) o)
    (stack : List (Frame T C V)) : Arrives E h₀ (.act (.give a)) (.resume k :: stack) o (landing stack) :=
  .head (fun _ _ => rfl) (hrest stack)

end

section

variable [Preorder α] {E : Engine T C V} {h₀ : Heap ThreadId C V} {rank : Ref → α}
  {asked : ThreadId → Option (Query T C V)} {p : Pool T C V}

/-- the claim of a single thread is granted or answered: nobody else can have the cell -/
theorem Forcing.solo_claim (hrun : Forcing E h₀ asked p) (hcalm : h₀.Unclaimed) (hranked : Ranked E h₀ rank)
    {thread : Thread T C V} (hthreads : p.threads = #[thread]) {r : Ref} (hwant : thread.wanted? = some r) :
    (∃ c, h₀[r]? = some (.pending c) ∧
      p.heap.claimBy 0 r = (some (.granted c), p.heap.setIfInBounds r (.busy 0))) ∨
    ∃ o, p.heap.claimBy 0 r = (some (.outcome o), p.heap) ∧ Answers E h₀ (.cell r) o := by
  have hfresh := fresh_of_unclaimed (T := T) hcalm
  obtain ⟨hco, hbefore⟩ := hrun.coherent_ranked hcalm hranked
  have hwant' : p.threads[0]?.bind Thread.wanted? = some r := by simp [hthreads, hwant]
  rcases hco.knows.claim_cases (not_own_of_wanted hfresh hbefore hwant') with
    ⟨c, hcode, heq, -⟩ | ⟨owner, hbusy, hother, -⟩ | hanswered
  · exact .inl ⟨c, hcode, heq⟩
  · obtain ⟨past, hrun'⟩ := hbefore.toRun
    have hheld : r ∈ p.held owner := ((hrun'.sound hfresh).tight r owner hbusy).resolve_right id
    have hlt : owner < p.threads.size := (unfinished_of_held hheld).1
    rw [hthreads] at hlt
    exact absurd (Nat.lt_one_iff.1 hlt) hother
  · exact .inr hanswered

/-- a cell lands if its code does -/
theorem lands_cell (hcalm : h₀.Unclaimed) (hranked : Ranked E h₀ rank) {r : Ref} {o : Outcome V}
    (hanswer : Answers E h₀ (.cell r) o)
    (hbody : ∀ c, h₀[r]? = some (.pending c) → Lands E h₀ (.comp (E.body c)) o) : Lands E h₀ (.cell r) o := by
  have hdemand : ∀ stack, Arrives E h₀ (.act (.demand r)) stack o stack := by
    intro stack asked p hrun hthreads
    rcases hrun.solo_claim hcalm hranked hthreads rfl with ⟨c, hcode, heq⟩ | ⟨o', heq, hanswer'⟩
    · refine (hbody c hcode (.walk [r] :: stack)).after hrun hthreads ?_
      simp [step, hthreads, Pool.demand, heq, putAct, put]
    · cases hanswer.unique hanswer'
      refine arrives_refl.after hrun hthreads ?_
      simp [step, hthreads, Pool.demand, heq, putAct, put]
  refine fun stack => ⟨hdemand stack, ?_⟩
  cases stack with
  | nil => exact .head (fun _ _ => rfl) (hdemand _)
  | cons frame stack =>
    cases frame with
    | resume k => exact .head (fun _ _ => rfl) (hdemand _)
    | visit top work => exact .head (fun _ _ => rfl) (hdemand _)
    | walk claimed =>
      intro asked p hrun hthreads
      rcases hrun.solo_claim hcalm hranked hthreads rfl with ⟨c, hcode, heq⟩ | ⟨o', heq, hanswer'⟩
      · refine (hbody c hcode (.walk (r :: claimed) :: stack)).after hrun hthreads ?_
        simp [step, hthreads, conclude, heq, putAct, put]
      · cases hanswer.unique hanswer'
        refine (arrives_publish o claimed.reverse stack).after hrun hthreads ?_
        simp [step, hthreads, conclude, heq, put]

/-- **A single thread comes to the answer**, by induction on how the answer was found. -/
theorem lands_of_answers (hcalm : h₀.Unclaimed) (hranked : Ranked E h₀ rank) {Q : Query T C V} {o : Outcome V}
    (hanswer : Answers E h₀ Q o) : Lands E h₀ Q o := by
  induction hanswer with
  | stored houtcome =>
    refine lands_cell hcalm hranked (.stored houtcome) fun c hcode => ?_
    simp [Heap.outcome?, hcode, Cell.outcome?] at houtcome
  | missing houtside =>
    refine lands_cell hcalm hranked (.missing houtside) fun c hcode => ?_
    rw [houtside] at hcode
    cases hcode
  | opened hcode hbody ih =>
    refine lands_cell hcalm hranked (.opened hcode hbody) fun c' hcode' => ?_
    rw [hcode] at hcode'
    cases hcode'
    exact ih
  | value v => exact fun stack => .head (fun _ _ => rfl) (arrives_ended (.ok v) stack)
  | fail e => exact fun stack => .head (fun _ _ => rfl) (arrives_ended (.error e) stack)
  | cell htail ih => exact fun stack => .head (fun _ _ => rfl) (ih stack).2
  | code htail ih => exact fun stack => .head (fun _ _ => rfl) (ih stack)
  | @force r k a o hfirst hrest ihFirst ihRest =>
    -- what is asked for is found above the waiting code, which then goes on with it
    intro stack
    exact .head (fun _ _ => rfl) ((ihFirst (.resume k :: stack)).1.trans (arrives_resume ihRest stack))
  | @eval c k a o hfirst hrest ihFirst ihRest =>
    intro stack
    exact .head (fun _ _ => rfl) ((ihFirst (.resume k :: stack)).trans (arrives_resume ihRest stack))
  | @normalize v k a o hfirst hrest ihFirst ihRest =>
    intro stack
    exact .head (fun _ _ => rfl) ((ihFirst (.resume k :: stack)).trans (arrives_resume ihRest stack))
  | emit hrest ih => exact fun stack => .head (fun _ _ => rfl) (ih stack)
  | visited top => exact fun stack => .head (fun _ _ => rfl) arrives_refl
  | @visit top v r work o hfirst hrest ihFirst ihRest =>
    intro stack
    have hvisited : Arrives E h₀ (.act (.give (.ok v))) (.visit top work :: stack) o stack :=
      .head (fun _ _ => rfl) (ihRest stack)
    exact .head (fun _ _ => rfl) ((ihFirst (.visit top work :: stack)).1.trans hvisited)
  | @stopped top r work e hfirst ih =>
    intro stack
    have hstopped : Arrives E h₀ (.act (.give (.error e))) (.visit top work :: stack) (.error e) stack :=
      .head (fun _ _ => rfl) arrives_refl
    exact .head (fun _ _ => rfl) ((ih (.visit top work :: stack)).1.trans hstopped)

/-! ## Alone and among others -/

/-- a thread that has finished stays where it is -/
theorem step_of_result (E : Engine T C V) {t : ThreadId} (hfinished : (p.result? t).isSome) : p.step E t = p := by
  obtain ⟨x, hx⟩ := Option.isSome_iff_exists.1 hfinished
  obtain ⟨thread, ht, hres⟩ := Option.bind_eq_some_iff.1 hx
  rcases Thread.result_cases hres with ⟨o, rfl, rfl⟩ | ⟨text, rfl, rfl⟩
  · have hsame : p.threads.setIfInBounds t ⟨.act (.give o), []⟩ = p.threads := by
      apply Array.ext_getElem?
      intro i
      rw [Array.getElem?_setIfInBounds]
      split_ifs with hi hlt
      · rw [← hi, ht]
      · rw [← hi, Array.getElem?_eq_none_iff.2 (Nat.le_of_not_lt hlt)]
      · rfl
    simp [step, ht, deliver, putAct, put, hsame]
  · simp [step, ht]

/-- a single thread that has not finished can move -/
theorem Forcing.solo_ready (hrun : Forcing E h₀ asked p) (hcalm : h₀.Unclaimed) (hranked : Ranked E h₀ rank)
    (hsingle : p.threads.size = 1) (hunfinished : p.result? 0 = none) : p.ready 0 = true := by
  obtain ⟨hco, hbefore⟩ := hrun.coherent_ranked hcalm hranked
  obtain ⟨u, hopen, hfree⟩ := exists_not_blocked (fresh_of_unclaimed hcalm) hbefore
    (t := 0) ⟨by rw [hsingle]; exact Nat.one_pos, hunfinished⟩
  have hu : u = 0 := by
    have := hopen.1
    rw [hsingle] at this
    exact Nat.lt_one_iff.1 this
  subst hu
  refine ready_of_not_blocked hopen hfree fun child k stack ht => ?_
  exact hco.threads _ _ ht

/-- moving a single thread on to its result is what `Pool.run` does -/
theorem Forcing.run_of_solo (hrun : Forcing E h₀ asked p) (hcalm : h₀.Unclaimed) (hranked : Ranked E h₀ rank)
    {q : Pool T C V} (hsolo : Solo E p q) (hsingle : q.threads.size = 1) (hfinished : (q.result? 0).isSome) :
    ∃ steps, ∀ n ≥ steps, Pool.run E n p = some q := by
  induction hsolo using Relation.ReflTransGen.head_induction_on with
  | refl =>
    refine ⟨1, fun n hn => ?_⟩
    obtain ⟨k, rfl⟩ := Nat.exists_eq_add_of_le' hn
    obtain ⟨x, hx⟩ := Option.isSome_iff_exists.1 hfinished
    obtain ⟨thread, ht, hres⟩ := Option.bind_eq_some_iff.1 hx
    have hready : q.ready 0 = false := by simp [ready, ht, hres]
    simp [Pool.run, next?, hsingle, List.range_succ, hready]
  | @head p p' hmove hrest ih =>
    obtain ⟨rfl, hsize⟩ := hmove
    obtain ⟨steps, hsteps⟩ := ih (hrun.step 0)
    cases hres : p.result? 0 with
    | some x =>
      rw [step_of_result E (by rw [hres]; rfl)] at hsteps
      exact ⟨steps, hsteps⟩
    | none =>
      refine ⟨steps + 1, fun n hn => ?_⟩
      obtain ⟨k, rfl⟩ := Nat.exists_eq_add_of_le' (Nat.le_of_add_left_le hn)
      have hready := hrun.solo_ready hcalm hranked hsize hres
      simp only [Pool.run, next?, hsize, List.range_succ, List.range_zero, List.nil_append, List.find?_cons, hready]
      exact hsteps k (by omega)

/-- a thread that is asked the query over the cells of `h₀`, with no other thread around, comes to `o` -/
def Alone (E : Engine T C V) (h₀ : Heap ThreadId C V) (Q : Query T C V) (o : Outcome V) : Prop :=
  ∃ steps, ∀ n ≥ steps, ∃ q, Pool.run E n ⟨h₀, [], #[⟨.act Q.control, []⟩]⟩ = some q ∧ q.result? 0 = some (.ok o)

theorem alone_of_answers (hcalm : h₀.Unclaimed) (hranked : Ranked E h₀ rank) {Q : Query T C V} {o : Outcome V}
    (hpure : Q.DependsOn E h₀ fun _ => True) (hanswer : Answers E h₀ Q o) : Alone E h₀ Q o := by
  have hempty : Forcing E h₀ (fun _ => none) ⟨h₀, [], #[]⟩ := .start
  have hrun := hempty.spawn Q hpure
  have hlands := lands_of_answers hcalm hranked hanswer
  obtain ⟨q, hsolo, hthreads⟩ : ∃ q, Solo E ⟨h₀, [], #[⟨.act Q.control, []⟩]⟩ q ∧
      q.threads = #[⟨.act (.give o), []⟩] := by
    cases Q with
    | cell r => exact (hlands []).1 _ _ hrun rfl
    | comp c => exact hlands [] _ _ hrun rfl
    | parts top work => exact hlands [] _ _ hrun rfl
  have hresult : q.result? 0 = some (.ok o) := by simp [result?, hthreads, Thread.result?]
  obtain ⟨steps, hsteps⟩ := hrun.run_of_solo hcalm hranked hsolo (by simp [hthreads]) (by simp [hresult])
  exact ⟨steps, fun n hn => ⟨q, hsteps n hn, hresult⟩⟩

/-- **The schedule does not matter.** Over ranked cells, in every interleaving of any number of threads, each of which
is asked one query after another: a thread that has finished has the outcome that it comes to alone, from the cells as
they were at first. The same holds of every outcome that is stored in a cell and of every outcome that a claim hands
out on the way. -/
theorem schedule_irrelevant (hcalm : h₀.Unclaimed) (hranked : Ranked E h₀ rank) (hrun : Forcing E h₀ asked p) :
    (∀ t Q x, asked t = some Q → p.result? t = some x → ∃ o, x = .ok o ∧ Alone E h₀ Q o) ∧
    (∀ r o, p.heap.outcome? r = some o → Alone E h₀ (.cell r) o) ∧
    ∀ t r o, p.threads[t]?.bind Thread.wanted? = some r → (p.heap.claimBy t r).1 = some (.outcome o) →
      Alone E h₀ (.cell r) o := by
  obtain ⟨hco, hbefore⟩ := hrun.coherent_ranked hcalm hranked
  refine ⟨fun t Q x hQ hx => ?_, fun r o hstored => ?_, fun t r o hwant hclaim => ?_⟩
  · obtain ⟨o, rfl, hanswer⟩ := hrun.answers hcalm hranked hQ hx
    exact ⟨o, rfl, alone_of_answers hcalm hranked (hrun.pure hQ) hanswer⟩
  · exact alone_of_answers hcalm hranked trivial (hco.knows.outcome r o hstored)
  · have hnot := not_own_of_wanted (fresh_of_unclaimed hcalm) hbefore hwant
    rcases hco.knows.claim_cases hnot with ⟨c, -, heq, -⟩ | ⟨owner, -, -, heq⟩ | ⟨o', heq, hanswer⟩
    · rw [heq] at hclaim
      cases hclaim
    · rw [heq] at hclaim
      cases hclaim
    · rw [heq] at hclaim
      cases hclaim
      exact alone_of_answers hcalm hranked trivial hanswer

/-- three cells: 2 forces 1 and makes up for a failure; 1 goes on with 0; 0 fails -/
def rescue : Engine Empty Nat Nat where
  body
    | 2 => .force 1 fun
      | .ok v => .done (.value (v + 1))
      | .error _ => .done (.value 9)
    | 1 => .done (.cell 0)
    | _ => .fail (.user "lost")
  parts _ := []
  fuel := 0

/-- thread 0 forces 2 and has to wait for 1, which thread 1 forces; both get what they get alone -/
theorem schedule_irrelevant_rescue :
    ∃ (h₀ : Heap ThreadId Nat Nat) (asked : ThreadId → Option (Query Empty Nat Nat)) (p : Pool Empty Nat Nat),
      h₀.Unclaimed ∧ Ranked rescue h₀ id ∧ Forcing rescue h₀ asked p ∧
      p.result? 0 = some (.ok (.ok 9)) ∧ Alone rescue h₀ (.cell 2) (.ok 9) ∧
      p.result? 1 = some (.ok (.error (.user "lost"))) ∧
      Alone rescue h₀ (.cell 1) (.error (.user "lost")) := by
  let h₀ : Heap ThreadId Nat Nat := #[.pending 0, .pending 1, .pending 2]
  have hcalm : h₀.Unclaimed := by
    intro r owner
    match r with
    | 0 | 1 | 2 => simp [h₀]
    | r + 3 => simp [h₀]
  have hranked : Ranked rescue h₀ id := by
    intro r c hcode
    refine ⟨fun _ => False, fun _ hnone => hnone.elim, ?_⟩
    match r with
    | 0 => cases hcode; trivial
    | 1 => cases hcode; exact Nat.one_pos
    | 2 =>
      cases hcode
      refine ⟨Nat.one_lt_two, fun o _ => ?_⟩
      cases o <;> trivial
    | r + 3 => simp [h₀] at hcode
  let asked : ThreadId → Option (Query Empty Nat Nat) :=
    Function.update (Function.update (fun _ => none) 0 (some (.cell 2))) 1 (some (.cell 1))
  have hempty : Forcing rescue h₀ (fun _ => none) ⟨h₀, [], #[]⟩ := .start
  have hbegun : Forcing rescue h₀ asked ⟨h₀, [], #[.demanding 2, .demanding 1]⟩ :=
    (hempty.spawn (.cell 2) trivial).spawn (.cell 1) trivial
  -- both threads claim their cells, and thread 0 waits for 1 until thread 1 has published it
  have hrun := hbegun.steps [0, 1, 0, 1, 0, 1, 1, 0, 1, 1, 1, 1, 0, 0, 0, 0, 0, 0]
  obtain ⟨hresults, -⟩ := schedule_irrelevant hcalm hranked hrun
  obtain ⟨_, hfirst', hfirst⟩ := hresults 0 (.cell 2) (.ok (.ok 9)) rfl (by decide +kernel)
  obtain ⟨_, hsecond', hsecond⟩ := hresults 1 (.cell 1) (.ok (.error (.user "lost"))) rfl (by decide +kernel)
  cases hfirst'
  cases hsecond'
  exact ⟨h₀, asked, _, hcalm, hranked, hrun, by decide +kernel, hfirst, by decide +kernel, hsecond⟩

end

end Pool

end ByNeed
