/-
Cells that no code can name.

Code asks for a cell by its address. It has the addresses that stand in its text, those that come with the answers to
its requests, and those of the cells it makes. So where no code, no value and no waiting computation mentions a cell,
none ever will, and the cell is forced from outside or not at all. The addresses that are mentioned are those of cells,
too: nothing leads out of the heap.

`Sight` says which addresses code and values mention, and which cells are to be hidden.
- `Discreet.bind`: computations that mention only open cells can be put one after the other.
- `Guarded.step`: from a state in which only open cells are mentioned, a step leads to such a state.
- `Guarded.halts`: on the whole way to a halt, no request is for a hidden cell.
-/
import ByNeed.Proofs.Nesting

namespace ByNeed

variable {C V α β : Type}

/-- which cells are not to be mentioned -/
structure Hiding where
  /-- how many cells there are at the start -/
  first : Nat
  hidden : Ref → Prop
  hidden_lt : ∀ r, hidden r → r < first

/-- the addresses that code and values mention -/
structure Sight (C V : Type) extends Hiding where
  code : C → List Ref
  value : V → List Ref

namespace Sight

/-! ## Open cells -/

/-- among `size` cells, `rs` are cells and none of them is hidden -/
def Open (P : Sight C V) (size : Nat) (rs : List Ref) : Prop := ∀ r ∈ rs, r < size ∧ ¬ P.hidden r

def outcome (P : Sight C V) : Outcome V → List Ref
  | .ok v => P.value v
  | .error _ => []

def next (P : Sight C V) : Next C V → List Ref
  | .value v => P.value v
  | .cell r => [r]
  | .code c => P.code c

def tail (P : Sight C V) : Outcome (Tail V) → List Ref
  | .ok (.value v) => P.value v
  | .ok (.cell r) => [r]
  | .error _ => []

def cell (P : Sight C V) : Cell Unit C V → List Ref
  | .pending c => P.code c
  | .value v => P.value v
  | .busy _ | .failed _ => []

variable {P : Sight C V} {size more : Nat} {rs qs : List Ref} {r : Ref}

theorem Open.grow (hopen : P.Open size rs) (hgrown : size ≤ more) : P.Open more rs :=
  fun r hr => ⟨(hopen r hr).1.trans_le hgrown, (hopen r hr).2⟩

theorem Open.subset (hopen : P.Open size rs) (hsub : qs ⊆ rs) : P.Open size qs := fun r hr => hopen r (hsub hr)

@[simp]
theorem open_nil : P.Open size [] := by simp [Open]

@[simp]
theorem open_cons : P.Open size (r :: rs) ↔ P.Open size [r] ∧ P.Open size rs := by simp [Open]

@[simp]
theorem open_append : P.Open size (rs ++ qs) ↔ P.Open size rs ∧ P.Open size qs := List.forall_mem_append

/-! ## Computations -/

/-- Mentions only open cells while there are `size` cells, whatever open cells the answers bring in; `post` holds of the
result and of the number of cells at that time. -/
inductive Discreet (P : Sight C V) (post : Nat → α → Prop) : Nat → Comp Empty C V α → Prop where
  | done {size : Nat} {a : α} (hresult : post size a) : Discreet P post size (.done a)
  | fail {size : Nat} (e : EvalError) : Discreet P post size (.fail e)
  | abort {size : Nat} (text : String) : Discreet P post size (.abort text)
  | force {size : Nat} {r : Ref} {k : Outcome V → Comp Empty C V α} (hasked : P.Open size [r])
      (hrest : ∀ more ≥ size, ∀ o, P.Open more (P.outcome o) → Discreet P post more (k o)) :
      Discreet P post size (.force r k)
  | eval {size : Nat} {c : C} {k : Outcome V → Comp Empty C V α} (hrun : P.Open size (P.code c))
      (hrest : ∀ more ≥ size, ∀ o, P.Open more (P.outcome o) → Discreet P post more (k o)) :
      Discreet P post size (.eval c k)
  | normalize {size : Nat} {v : V} {k : Outcome V → Comp Empty C V α} (htop : P.Open size (P.value v))
      (hrest : ∀ more ≥ size, ∀ o, P.Open more (P.outcome o) → Discreet P post more (k o)) :
      Discreet P post size (.normalize v k)
  | peek {size : Nat} {r : Ref} {k : Status → Comp Empty C V α} (hrest : ∀ s, Discreet P post size (k s)) :
      Discreet P post size (.peek r k)
  | ready {size : Nat} {v : V} {k : Ref → Comp Empty C V α} (hheld : P.Open size (P.value v))
      (hrest : ∀ more ≥ size, ∀ r, P.Open more [r] → Discreet P post more (k r)) : Discreet P post size (.ready v k)
  | delay {size : Nat} {c : Ref → C} {k : Ref → Comp Empty C V α}
      (hheld : ∀ more ≥ size, ∀ r, P.Open more [r] → P.Open more (P.code (c r)))
      (hrest : ∀ more ≥ size, ∀ r, P.Open more [r] → Discreet P post more (k r)) : Discreet P post size (.delay c k)
  | emit {size : Nat} {event : String} {k : Unit → Comp Empty C V α} (hrest : Discreet P post size (k ())) :
      Discreet P post size (.emit event k)

namespace Discreet

variable {post : Nat → α → Prop} {post' : Nat → β → Prop} {c : Comp Empty C V α}

/-- one computation after the other -/
theorem bind {f : α → Comp Empty C V β} (hfirst : P.Discreet post size c)
    (hsecond : ∀ more ≥ size, ∀ a, post more a → P.Discreet post' more (f a)) : P.Discreet post' size (c.bind f) := by
  induction hfirst with
  | done hresult => exact hsecond _ le_rfl _ hresult
  | fail e => exact .fail e
  | abort text => exact .abort text
  | force hasked hrest ih =>
    exact .force hasked fun more hm o ho => ih more hm o ho fun still hs => hsecond still (hm.le.trans hs)
  | eval hrun hrest ih =>
    exact .eval hrun fun more hm o ho => ih more hm o ho fun still hs => hsecond still (hm.le.trans hs)
  | normalize htop hrest ih =>
    exact .normalize htop fun more hm o ho => ih more hm o ho fun still hs => hsecond still (hm.le.trans hs)
  | peek hrest ih => exact .peek fun s => ih s hsecond
  | ready hheld hrest ih =>
    exact .ready hheld fun more hm r hr => ih more hm r hr fun still hs => hsecond still (hm.le.trans hs)
  | delay hheld hrest ih =>
    exact .delay hheld fun more hm r hr => ih more hm r hr fun still hs => hsecond still (hm.le.trans hs)
  | emit hrest ih => exact .emit (ih hsecond)

theorem attempt (hfirst : P.Discreet post size c) :
    P.Discreet (fun size o => ∀ a, o = .ok a → post size a) size c.attempt := by
  induction hfirst with
  | done hresult => exact .done fun a ha => by cases ha; exact hresult
  | fail e => exact .done fun a ha => by cases ha
  | abort text => exact .abort text
  | force hasked hrest ih => exact .force hasked ih
  | eval hrun hrest ih => exact .eval hrun ih
  | normalize htop hrest ih => exact .normalize htop ih
  | peek hrest ih => exact .peek ih
  | ready hheld hrest ih => exact .ready hheld ih
  | delay hheld hrest ih => exact .delay hheld ih
  | emit hrest ih => exact .emit ih

theorem ofOutcome {o : Outcome α} (hresult : ∀ a, o = .ok a → post size a) :
    P.Discreet post size (Comp.ofOutcome o : Comp Empty C V α) := by
  cases o with
  | error e => exact .fail e
  | ok a => exact .done (hresult a rfl)

theorem ofAnswer {o : Outcome V} (hanswer : P.Open size (P.outcome o)) :
    P.Discreet (fun size v => P.Open size (P.value v)) size (Comp.ofOutcome o : Comp Empty C V V) :=
  ofOutcome fun v hv => by subst hv; exact hanswer

theorem demand (hasked : P.Open size [r]) :
    P.Discreet (fun size v => P.Open size (P.value v)) size (Comp.demand r : Comp Empty C V V) :=
  .force hasked fun _ _ _ hanswer => ofAnswer hanswer

theorem whnf {c : C} (hrun : P.Open size (P.code c)) :
    P.Discreet (fun size v => P.Open size (P.value v)) size (Comp.whnf c : Comp Empty C V V) :=
  .eval hrun fun _ _ _ hanswer => ofAnswer hanswer

theorem deepen {v : V} (htop : P.Open size (P.value v)) :
    P.Discreet (fun size v => P.Open size (P.value v)) size (Comp.deepen v : Comp Empty C V V) :=
  .normalize htop fun _ _ _ hanswer => ofAnswer hanswer

theorem newReady {v : V} (hheld : P.Open size (P.value v)) :
    P.Discreet (fun size r => P.Open size [r]) size (Comp.newReady v : Comp Empty C V Ref) :=
  .ready hheld fun _ _ _ hmade => .done hmade

theorem newDelay {c : C} (hheld : P.Open size (P.code c)) :
    P.Discreet (fun size r => P.Open size [r]) size (Comp.newDelay c : Comp Empty C V Ref) :=
  .delay (fun _ hgrown _ _ => hheld.grow hgrown) fun _ _ _ hmade => .done hmade

theorem record (event : String) : P.Discreet (fun _ _ => True) size (Comp.record event : Comp Empty C V Unit) :=
  .emit (.done trivial)

theorem statusOf (r : Ref) : P.Discreet (fun _ _ => True) size (Comp.statusOf r : Comp Empty C V Status) :=
  .peek fun _ => .done trivial

end Discreet

/-! ## Heaps -/

/-- what the cells mention is open -/
structure OpenHeap (P : Sight C V) (h : Heap Unit C V) : Prop where
  cells : ∀ (r : Ref) (x : Cell Unit C V), h[r]? = some x → P.Open h.size (P.cell x)
  first : P.first ≤ h.size

variable {h : Heap Unit C V} {c : C} {o : Outcome V}

theorem cell_ofOutcome (o : Outcome V) : P.cell (.ofOutcome o) = P.outcome o := by cases o <;> rfl

namespace OpenHeap

/-- a new cell is open -/
theorem made (hheap : P.OpenHeap h) : P.Open (h.size + 1) [h.size] := by
  intro r hr
  rw [List.mem_singleton.1 hr]
  exact ⟨Nat.lt_succ_self _, fun hhid => Nat.lt_irrefl _ ((P.hidden_lt _ hhid).trans_le hheap.first)⟩

theorem push {x : Cell Unit C V} (hheap : P.OpenHeap h) (hfresh : P.Open (h.size + 1) (P.cell x)) :
    P.OpenHeap (h.push x) := by
  refine ⟨fun r y hy => ?_, ?_⟩
  · rw [Array.size_push]
    rw [Array.getElem?_push] at hy
    split_ifs at hy
    · cases hy
      exact hfresh
    · exact (hheap.cells r y hy).grow (Nat.le_succ _)
  · rw [Array.size_push]
    exact hheap.first.trans (Nat.le_succ _)

theorem settleAll (hheap : P.OpenHeap h) (hanswer : P.Open h.size (P.outcome o)) (rs : List Ref) :
    P.OpenHeap (h.settleAll o rs) := by
  refine ⟨fun r x hx => ?_, ?_⟩
  · rw [Heap.size_settleAll]
    rw [Heap.getElem?_settleAll] at hx
    split_ifs at hx
    · cases hx
      rwa [cell_ofOutcome]
    · exact hheap.cells r x hx
  · rw [Heap.size_settleAll]
    exact hheap.first

theorem claimed (hheap : P.OpenHeap h) (hcode : h[r]? = some (.pending c)) :
    P.OpenHeap (h.setIfInBounds r (.busy ())) := by
  refine ⟨fun q x hx => ?_, ?_⟩
  · rw [Array.size_setIfInBounds]
    rw [Heap.getElem?_claimed hcode] at hx
    split_ifs at hx
    · cases hx
      exact open_nil
    · exact hheap.cells q x hx
  · rw [Array.size_setIfInBounds]
    exact hheap.first

/-- the answer of a cell mentions only open cells -/
theorem answer (hheap : P.OpenHeap h) (hstored : h.claim r = (.outcome o, h)) : P.Open h.size (P.outcome o) := by
  rcases h.claim_cases r with ⟨c, -, heq⟩ | ⟨o', heq, hfound | ⟨rfl, -⟩⟩
  · rw [heq] at hstored
    cases hstored
  · rw [heq] at hstored
    cases hstored
    rw [← cell_ofOutcome]
    exact hheap.cells r _ (Heap.outcome?_eq_some.1 hfound)
  · rw [heq] at hstored
    cases hstored
    exact open_nil

end OpenHeap

/-! ## States -/

/-- code that mentions only open cells does so when it runs, and deep forcing visits what a value mentions -/
structure Respected (P : Sight C V) (E : Engine Empty C V) : Prop where
  body : ∀ size c, P.Open size (P.code c) → P.Discreet (fun size n => P.Open size (P.next n)) size (E.body c)
  parts : ∀ v, E.parts v ⊆ P.value v

/-- goes on discreetly with every open answer -/
def Waits (P : Sight C V) (size : Nat) (k : Outcome V → Comp Empty C V (Next C V)) : Prop :=
  ∀ more ≥ size, ∀ o, P.Open more (P.outcome o) → P.Discreet (fun size n => P.Open size (P.next n)) more (k o)

def OpenControl (P : Sight C V) (size : Nat) : Control Empty C V → Prop
  | .run c => P.Discreet (fun size n => P.Open size (P.next n)) size c
  | .ended t => P.Open size (P.tail t)
  | .demand r => P.Open size [r]
  | .give o => P.Open size (P.outcome o)
  | .traverse top work => P.Open size (P.value top) ∧ P.Open size work
  | .unwind _ => True

def OpenFrame (P : Sight C V) (size : Nat) : Frame Empty C V → Prop
  | .walk _ => True
  | .resume k => P.Waits size k
  | .visit top work => P.Open size (P.value top) ∧ P.Open size work

theorem OpenFrame.grow {frame : Frame Empty C V} (hopen : P.OpenFrame size frame) (hgrown : size ≤ more) :
    P.OpenFrame more frame := by
  cases frame with
  | walk rs => trivial
  | resume k => exact fun still hs => hopen still (hgrown.trans hs)
  | visit top work => exact ⟨hopen.1.grow hgrown, hopen.2.grow hgrown⟩

/-- only open cells are mentioned anywhere -/
structure Guarded (P : Sight C V) (m : Machine C V) : Prop where
  heap : P.OpenHeap m.heap
  control : P.OpenControl m.heap.size m.control
  frames : ∀ frame ∈ m.stack, P.OpenFrame m.heap.size frame

open Machine

variable {E : Engine Empty C V} {m m' : Machine C V} {events : List String} {stack : List (Frame Empty C V)}

theorem frames_grow (hframes : ∀ frame ∈ stack, P.OpenFrame size frame) (hgrown : size ≤ more) :
    ∀ frame ∈ stack, P.OpenFrame more frame := fun frame hf => (hframes frame hf).grow hgrown

theorem guarded_request {c : Comp Empty C V (Next C V)} (hrespected : P.Respected E)
    (hguarded : P.Guarded ⟨h, events, .run c, stack⟩) : P.Guarded (request E h events stack c) := by
  obtain ⟨hheap, hcontrol, hframes⟩ := hguarded
  have hpushed : ∀ {k}, P.Waits h.size k → ∀ frame ∈ Frame.resume k :: stack, P.OpenFrame h.size frame :=
    fun hk => List.forall_mem_cons.2 ⟨hk, hframes⟩
  cases hcontrol with
  | @done _ n hresult =>
    cases n with
    | value v => exact ⟨hheap, hresult, hframes⟩
    | cell r => exact ⟨hheap, hresult, hframes⟩
    | code c => exact ⟨hheap, hrespected.body _ c hresult, hframes⟩
  | fail e => exact ⟨hheap, open_nil, hframes⟩
  | abort text => exact ⟨hheap, trivial, hframes⟩
  | force hasked hrest => exact ⟨hheap, hasked, hpushed hrest⟩
  | eval hrun hrest => exact ⟨hheap, hrespected.body _ _ hrun, hpushed hrest⟩
  | normalize htop hrest => exact ⟨hheap, ⟨htop, htop.subset (hrespected.parts _)⟩, hpushed hrest⟩
  | peek hrest => exact ⟨hheap, hrest _, hframes⟩
  | @ready _ v k hheld hrest =>
    refine ⟨hheap.push (hheld.grow (Nat.le_succ _)), ?_, ?_⟩
    · simp only [request, Array.size_push]
      exact hrest _ (Nat.le_succ _) _ hheap.made
    · simp only [request, Array.size_push]
      exact frames_grow hframes (Nat.le_succ _)
  | @delay _ c k hheld hrest =>
    refine ⟨hheap.push (hheld _ (Nat.le_succ _) _ hheap.made), ?_, ?_⟩
    · simp only [request, Array.size_push]
      exact hrest _ (Nat.le_succ _) _ hheap.made
    · simp only [request, Array.size_push]
      exact frames_grow hframes (Nat.le_succ _)
  | emit hrest => exact ⟨hheap, hrest, hframes⟩

/-- a cell is claimed and its code starts, whether the cell itself is open or not -/
theorem guarded_claimed (hrespected : P.Respected E) (hheap : P.OpenHeap h)
    (hframes : ∀ frame ∈ stack, P.OpenFrame h.size frame) (hcode : h[r]? = some (.pending c)) (rs : List Ref) :
    P.Guarded ⟨h.setIfInBounds r (.busy ()), events, .run (E.body c), .walk rs :: stack⟩ := by
  refine ⟨hheap.claimed hcode, ?_, ?_⟩
  · simp only [Array.size_setIfInBounds]
    exact hrespected.body _ c (hheap.cells r _ hcode)
  · simp only [Array.size_setIfInBounds]
    exact List.forall_mem_cons.2 ⟨trivial, hframes⟩

theorem guarded_settled (hheap : P.OpenHeap h) (hframes : ∀ frame ∈ stack, P.OpenFrame h.size frame)
    (hanswer : P.Open h.size (P.outcome o)) (rs : List Ref) : P.Guarded ⟨h.settleAll o rs, events, .give o, stack⟩ := by
  refine ⟨hheap.settleAll hanswer rs, ?_, ?_⟩
  · simp only [Heap.size_settleAll]
    exact hanswer
  · simp only [Heap.size_settleAll]
    exact hframes

theorem guarded_conclude {t : Outcome (Tail V)} (hrespected : P.Respected E)
    (hguarded : P.Guarded ⟨h, events, .ended t, stack⟩) : P.Guarded (conclude E h events t stack) := by
  obtain ⟨hheap, hcontrol, hframes⟩ := hguarded
  cases stack with
  | nil => exact ⟨hheap, hcontrol, hframes⟩
  | cons frame stack =>
    have hbelow := (List.forall_mem_cons.1 hframes).2
    cases frame with
    | resume k => rcases t with e | v | q <;> exact ⟨hheap, hcontrol, hframes⟩
    | visit top work => rcases t with e | v | q <;> exact ⟨hheap, hcontrol, hframes⟩
    | walk rs =>
      rcases t with e | v | q
      · exact guarded_settled (o := .error e) hheap hbelow open_nil rs
      · exact guarded_settled (o := .ok v) hheap hbelow hcontrol rs
      · rcases h.claim_cases q with ⟨c, hcode, heq⟩ | ⟨o, heq, -⟩
        · simp only [conclude, heq]
          exact guarded_claimed hrespected hheap hbelow hcode _
        · simp only [conclude, heq]
          exact guarded_settled hheap hbelow (hheap.answer heq) rs

theorem guarded_deliver (hrespected : P.Respected E) (hguarded : P.Guarded ⟨h, events, .give o, stack⟩) :
    P.Guarded (deliver E h events o stack) := by
  obtain ⟨hheap, hcontrol, hframes⟩ := hguarded
  cases stack with
  | nil => exact ⟨hheap, hcontrol, hframes⟩
  | cons frame stack =>
    obtain ⟨hfirst, hbelow⟩ := List.forall_mem_cons.1 hframes
    cases frame with
    | resume k => exact ⟨hheap, hfirst _ le_rfl o hcontrol, hbelow⟩
    | walk rs => exact guarded_settled hheap hbelow hcontrol rs
    | visit top work =>
      cases o with
      | error e => exact ⟨hheap, open_nil, hbelow⟩
      | ok v =>
        have hparts : P.Open h.size (E.parts v) := Open.subset hcontrol (hrespected.parts v)
        exact ⟨hheap, ⟨hfirst.1, open_append.2 ⟨hparts, hfirst.2⟩⟩, hbelow⟩

/-- a demand of any cell, hidden or not, goes on without mentioning hidden cells -/
theorem guarded_demand (hrespected : P.Respected E) (hheap : P.OpenHeap h)
    (hframes : ∀ frame ∈ stack, P.OpenFrame h.size frame) (r : Ref) :
    P.Guarded (step E ⟨h, events, .demand r, stack⟩) := by
  rcases h.claim_cases r with ⟨c, hcode, heq⟩ | ⟨o, heq, -⟩
  · simp only [step, heq]
    exact guarded_claimed hrespected hheap hframes hcode _
  · simp only [step, heq]
    exact ⟨hheap, hheap.answer heq, hframes⟩

/-- **Hidden cells stay hidden.** -/
theorem Guarded.step (hrespected : P.Respected E) (hguarded : P.Guarded m) : P.Guarded (m.step E) := by
  obtain ⟨h, events, control, stack⟩ := m
  cases control with
  | run c => exact guarded_request hrespected hguarded
  | ended t => exact guarded_conclude hrespected hguarded
  | give o => exact guarded_deliver hrespected hguarded
  | demand r => exact guarded_demand hrespected hguarded.heap hguarded.frames r
  | traverse top work =>
    obtain ⟨hheap, ⟨hwhole, hvisits⟩, hframes⟩ := hguarded
    cases work with
    | nil => exact ⟨hheap, hwhole, hframes⟩
    | cons r work =>
      obtain ⟨hfirst, hothers⟩ := open_cons.1 hvisits
      exact ⟨hheap, hfirst, List.forall_mem_cons.2 ⟨⟨hwhole, hothers⟩, hframes⟩⟩
  | unwind text =>
    obtain ⟨hheap, -, hframes⟩ := hguarded
    cases stack with
    | nil => exact ⟨hheap, trivial, hframes⟩
    | cons frame stack =>
      have hsettled : P.Guarded
          ⟨h.settleAll (.error .poisoned) frame.claimed, events, .give (.error .poisoned), stack⟩ :=
        guarded_settled hheap (List.forall_mem_cons.1 hframes).2 open_nil frame.claimed
      exact ⟨hsettled.heap, trivial, hsettled.frames⟩

/-- what is asked for is open -/
theorem Guarded.wanted (hguarded : P.Guarded m) (hwanted : m.wanted? = some r) : ¬ P.hidden r := by
  have hfound : P.Open m.heap.size [r] := by
    have hcontrol := hguarded.control
    unfold wanted? at hwanted
    split at hwanted
    · rename_i hdemanded
      cases hwanted
      rwa [hdemanded] at hcontrol
    · rename_i hled _
      cases hwanted
      rwa [hled] at hcontrol
    · cases hwanted
  exact (hfound r List.mem_cons_self).2

/-- On the way to a halt, no request is for a hidden cell. -/
theorem Guarded.halts {n : Nat} {asks : List Ask} (hrespected : P.Respected E) (hguarded : P.Guarded m)
    (hrun : Halts E n asks m m') : P.OpenHeap m'.heap ∧ ∀ ask ∈ asks, ¬ P.hidden ask.cell := by
  induction hrun with
  | here hhalt => exact ⟨hguarded.heap, List.forall_mem_nil _⟩
  | @step n asks m m' hgoing hrest ih =>
    obtain ⟨hheap, hlater⟩ := ih (hguarded.step hrespected)
    refine ⟨hheap, fun ask hask => ?_⟩
    rcases List.mem_append.1 hask with hnow | hafter
    · obtain ⟨r, hwanted, rfl⟩ := Option.map_eq_some_iff.1 (Option.mem_toList.1 hnow)
      exact hguarded.wanted hwanted
    · exact hlater ask hafter

/-- **A force from outside.** After the request for its own cell it asks for no hidden cell, and what was hidden from
the cells still is when it halts. -/
theorem OpenHeap.halts {n : Nat} {later : List Ask} (hrespected : P.Respected E) (hheap : P.OpenHeap h)
    (hrest : Halts E n later (Machine.step E ⟨h, events, .demand r, []⟩) m') :
    P.OpenHeap m'.heap ∧ ∀ ask ∈ later, ¬ P.hidden ask.cell := by
  have hguarded : P.Guarded (Machine.step E ⟨h, events, .demand r, []⟩) :=
    guarded_demand hrespected hheap (List.forall_mem_nil _) r
  exact hguarded.halts hrespected hrest

end Sight

end ByNeed
