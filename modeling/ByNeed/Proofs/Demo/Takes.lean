/-
Reading a list gives what its sequence says.

A procedure is given by the number of steps that each of its demands may take. It settles if it ends the same way
whenever it is given enough of them, and never ends otherwise; it vanishes if it does not end at all.
- `build_makes`: a described list is built, and its cells have their meanings.
- `takes_yield`: reading its beginning, time and again, settles with the beginning of the sequence, or vanishes.
- `takes_meet_sequence`: the two together, for any list and any session.
-/
import ByNeed.Proofs.Demo.Demand
import ByNeed.Proofs.Io.Closing

namespace ByNeed

/-! ## Procedures that settle -/

namespace Host

variable {W C V α β : Type} {x : Nat → Host W C V α} {f : Nat → α → Host W C V β} {s t u : Session W C V}
  {a : α} {e : EvalError}

/-- the procedure ends with `o` and leaves `t`, if its demands are given enough steps, and never ends otherwise -/
structure Settles (x : Nat → Host W C V α) (s : Session W C V) (o : Outcome α) (t : Session W C V) : Prop where
  ends : ∃ steps, ∀ n ≥ steps, attempt (x n) s = .ok o t
  only : ∀ {n o' t'}, attempt (x n) s = .ok o' t' → o' = o ∧ t' = t

/-- the procedure never ends but by an abort -/
def Vanishes (x : Nat → Host W C V α) (s : Session W C V) : Prop := ∀ n o t, attempt (x n) s ≠ .ok o t

theorem attempt_attempt_iff {x : Host W C V α} {o : Outcome (Outcome α)} :
    attempt (attempt x) s = .ok o t ↔ ∃ o', attempt x s = .ok o' t ∧ o = .ok o' := by
  simp only [attempt]
  cases x s with
  | ok a t => simp [eq_comm, and_comm]
  | error stop t => cases stop <;> simp [eq_comm, and_comm]

theorem Settles.pure (a : α) (s : Session W C V) : Settles (fun _ => (Pure.pure a : Host W C V α)) s (.ok a) s :=
  ⟨⟨0, fun _ _ => rfl⟩, fun h => by cases h; exact ⟨rfl, rfl⟩⟩

/-- a procedure that makes no demands -/
theorem Settles.of_ok {y : Host W C V α} (hy : y s = .ok a t) : Settles (fun _ => y) s (.ok a) t := by
  refine ⟨⟨0, fun _ _ => attempt_ok hy⟩, fun h => ?_⟩
  rw [attempt_ok hy] at h
  cases h
  exact ⟨rfl, rfl⟩

theorem Settles.ofOutcome (o : Outcome α) (s : Session W C V) :
    Settles (fun _ => (ofOutcome o : Host W C V α)) s o s := by
  cases o with
  | ok a => exact .pure a s
  | error e => exact ⟨⟨0, fun _ _ => rfl⟩, fun h => by cases h; exact ⟨rfl, rfl⟩⟩

theorem Settles.bind {o : Outcome β} (hfirst : Settles x s (.ok a) t) (hrest : Settles (fun n => f n a) t o u) :
    Settles (fun n => x n >>= f n) s o u := by
  refine ⟨?_, ?_⟩
  · obtain ⟨steps, h⟩ := hfirst.ends
    obtain ⟨steps', h'⟩ := hrest.ends
    exact ⟨max steps steps', fun n hn =>
      attempt_bind_iff.2 (.inl ⟨a, t, h n (le_of_max_le_left hn), h' n (le_of_max_le_right hn)⟩)⟩
  · intro n o' t' hended
    rcases attempt_bind_iff.1 hended with ⟨a', t₁, hbegun, hended⟩ | ⟨e, hfailed, -⟩
    · obtain ⟨⟨⟩, rfl⟩ := hfirst.only hbegun
      exact hrest.only hended
    · obtain ⟨⟨⟩, -⟩ := hfirst.only hfailed

theorem Settles.bind_error (hfirst : Settles x s (.error e) t) : Settles (fun n => x n >>= f n) s (.error e) t := by
  refine ⟨?_, ?_⟩
  · obtain ⟨steps, h⟩ := hfirst.ends
    exact ⟨steps, fun n hn => attempt_bind_iff.2 (.inr ⟨e, h n hn, rfl⟩)⟩
  · intro n o' t' hended
    rcases attempt_bind_iff.1 hended with ⟨a', t₁, hbegun, -⟩ | ⟨e', hfailed, rfl⟩
    · obtain ⟨⟨⟩, -⟩ := hfirst.only hbegun
    · obtain ⟨⟨⟩, rfl⟩ := hfirst.only hfailed
      exact ⟨rfl, rfl⟩

theorem Settles.bind_vanishes (hfirst : Settles x s (.ok a) t) (hrest : Vanishes (fun n => f n a) t) :
    Vanishes (fun n => x n >>= f n) s := by
  intro n o u hended
  rcases attempt_bind_iff.1 hended with ⟨a', t₁, hbegun, hended⟩ | ⟨e, hfailed, -⟩
  · obtain ⟨⟨⟩, rfl⟩ := hfirst.only hbegun
    exact hrest n o u hended
  · obtain ⟨⟨⟩, -⟩ := hfirst.only hfailed

theorem Vanishes.bind (hvanishes : Vanishes x s) : Vanishes (fun n => x n >>= f n) s := by
  intro n o t hended
  rcases attempt_bind_iff.1 hended with ⟨a, t₁, hbegun, -⟩ | ⟨e, hfailed, -⟩
  · exact hvanishes n _ _ hbegun
  · exact hvanishes n _ _ hfailed

theorem Settles.attempt {o : Outcome α} (hsettles : Settles x s o t) :
    Settles (fun n => Host.attempt (x n)) s (.ok o) t := by
  refine ⟨?_, ?_⟩
  · obtain ⟨steps, h⟩ := hsettles.ends
    exact ⟨steps, fun n hn => attempt_attempt_iff.2 ⟨o, h n hn, rfl⟩⟩
  · intro n o' t' hended
    obtain ⟨o'', hinner, rfl⟩ := attempt_attempt_iff.1 hended
    obtain ⟨rfl, rfl⟩ := hsettles.only hinner
    exact ⟨rfl, rfl⟩

theorem Vanishes.attempt (hvanishes : Vanishes x s) : Vanishes (fun n => Host.attempt (x n)) s := by
  intro n o t hended
  obtain ⟨o', hended, -⟩ := attempt_attempt_iff.1 hended
  exact hvanishes n o' t hended

section

open Machine

variable {E : Engine Empty C V} {r : Ref}

/-- an outcome that is handed out is one that the evaluator ends with -/
theorem run_of_outcome {n : Nat} {o : Outcome (Outcome V)}
    (hended : attempt (outcome { E with fuel := n } r) s = .ok o t) :
    ∃ m, Machine.run E n ⟨s.heap, s.events, .demand r, []⟩ = some m ∧ ∃ o', m.control = .give o' ∧ o = .ok o' ∧
      t = ⟨m.heap, m.events, s.world⟩ := by
  simp only [attempt, outcome, drive, run_fuel] at hended
  cases hrun : Machine.run E n ⟨s.heap, s.events, .demand r, []⟩ with
  | none => simp [hrun] at hended
  | some m =>
    obtain ⟨h, events, control, stack⟩ := m
    cases control <;> simp [hrun, outcomeOf] at hended
    obtain ⟨rfl, rfl⟩ := hended
    exact ⟨_, rfl, _, rfl, rfl, rfl⟩

/-- A force settles if the evaluator hands out an outcome. -/
theorem settles_force {h : Heap Unit C V} {events : List String} {o : Outcome V}
    (hreach : Reaches E ⟨s.heap, s.events, .demand r, []⟩ ⟨h, events, .give o, []⟩) :
    Settles (fun n => force { E with fuel := n } r) s o ⟨h, events, s.world⟩ := by
  obtain ⟨steps, henough⟩ := run_of_reaches hreach rfl
  have houtcome : Settles (fun n => outcome { E with fuel := n } r) s (.ok o) ⟨h, events, s.world⟩ := by
    refine ⟨⟨steps, fun n hn => ?_⟩, ?_⟩
    · simp [attempt, outcome, drive, run_fuel, henough n hn, outcomeOf]
    · intro n o' t' hended
      obtain ⟨m, hrun, o'', hm, rfl, rfl⟩ := run_of_outcome hended
      have := (run_mono (le_max_left n steps) hrun).symm.trans (henough _ (le_max_right n steps))
      cases this
      cases hm
      exact ⟨rfl, rfl⟩
  exact houtcome.bind (.ofOutcome o _)

/-- A force vanishes if the evaluator never hands anything out. -/
theorem vanishes_force (hlost : Lost E ⟨s.heap, s.events, .demand r, []⟩ []) :
    Vanishes (fun n => force { E with fuel := n } r) s := by
  refine Vanishes.bind fun n o t hended => ?_
  obtain ⟨m, hrun, o', hm, -, -⟩ := run_of_outcome hended
  rcases hlost with hnever | ⟨h, events, text, hreach⟩
  · rw [hnever n] at hrun
    cases hrun
  · obtain ⟨steps, henough⟩ := run_of_reaches hreach rfl
    have := (run_mono (le_max_left n steps) hrun).symm.trans (henough _ (le_max_right n steps))
    cases this
    cases hm

end

end Host

namespace Demo

open Machine Legend Host

/-! ## Reading -/

variable {W α β : Type} {Γ Γ' : Legend} {s t : Session W Code Value} {xs : Ref} {q : Seq} {ranks : Nat → Ordinal.{0}}
  {x : Nat → Host W Code Value α} {f : Nat → α → Host W Code Value β}

/-- the procedure settles with this outcome while legend and heap grow; without an outcome it vanishes -/
def Yields (Γ : Legend) (x : Nat → Host W Code Value α) (s : Session W Code Value) : Option (Outcome α) → Prop
  | some o => ∃ Γ' t, Settles x s o t ∧ Grows Γ s.heap Γ' t.heap
  | none => Vanishes x s

theorem Yields.bind {a : α} {o : Option (Outcome β)} (hfirst : Settles x s (.ok a) t)
    (hgrows : Grows Γ s.heap Γ' t.heap)
    (hrest : Yields Γ' (fun n => f n a) t o) : Yields Γ (fun n => x n >>= f n) s o := by
  cases o with
  | none => exact hfirst.bind_vanishes hrest
  | some o =>
    obtain ⟨Γ'', u, hsettles, hgrows'⟩ := hrest
    exact ⟨Γ'', u, hfirst.bind hsettles, hgrows.trans hgrows'⟩

/-- What forcing a cell yields is what it means. -/
theorem force_yields {m : Meaning} (hfits : Γ.Fits s.heap) (hcalm : Γ.Calm s.heap) (hxs : Γ xs = some m) :
    (m.Defined ∧ ∃ Γ' o t, Settles (fun n => force (engine n) xs) s o t ∧ Γ'.Answers o m ∧ Grows Γ s.heap Γ' t.heap) ∨
      ¬ m.Defined ∧ Vanishes (fun n => force (engine n) xs) s := by
  have hland := demand_lands hfits hcalm hxs s.events []
  by_cases hm : m.Defined
  · obtain ⟨Γ', h, o, hreach, hgrows, hanswers, -⟩ := hland.gives hm
    exact .inl ⟨hm, Γ', o, _, settles_force hreach, hanswers, hgrows⟩
  · exact .inr ⟨hm, vanishes_force (hland.lost hm)⟩

/-- The beginning of a list is read cell by cell. -/
theorem takeFrom_yields (hfits : Γ.Fits s.heap) (hcalm : Γ.Calm s.heap) (hlist : Γ.IsList xs q ranks)
    (seen : List Value) (k : Nat) : Yields Γ (fun n => takeFrom (engine n) seen k xs) s
      ((q.take k).map fun o => (fun ns => seen.reverse ++ ns.map Value.int) <$> o) := by
  induction k generalizing Γ s xs q ranks seen with
  | zero =>
    refine ⟨Γ, s, ?_, .refl hfits⟩
    simpa [takeFrom] using Settles.pure seen.reverse s
  | succ k ih =>
    obtain ⟨low, -, hxs⟩ := hlist
    rcases force_yields hfits hcalm hxs with ⟨-, Γ₁, o, t, hsettles, hanswers, hgrows⟩ | ⟨hm, hvanishes⟩
    · cases hanswers with
      | failed hnode =>
        simp only [Seq.take, hnode]
        exact ⟨Γ₁, t, hsettles.bind_error, hgrows⟩
      | nil hnode =>
        simp only [Seq.take, hnode]
        refine Yields.bind hsettles hgrows ⟨Γ₁, t, ?_, .refl hgrows.fits⟩
        simpa using Settles.pure seen.reverse t
      | @cons _ a _ head tail hnode helem hrest =>
        obtain ⟨rank, -, hhead⟩ := helem
        refine Yields.bind hsettles hgrows ?_
        rcases force_yields hgrows.fits (hgrows.keeps_calm hcalm) hhead with
          ⟨-, Γ₂, o, t₂, hsettles', hanswers', hgrows'⟩ | ⟨hm, -⟩
        · cases hanswers'
          cases a with
          | error e =>
            simp only [Seq.take, hnode]
            exact ⟨Γ₂, t₂, hsettles'.bind_error, hgrows'⟩
          | ok v =>
            have hlater := ih hgrows'.fits (hgrows'.keeps_calm (hgrows.keeps_calm hcalm)) (hrest.within hgrows'.within)
              (.int v :: seen)
            refine Yields.bind hsettles' hgrows' ?_
            simp only [Seq.take, hnode]
            simpa [Function.comp_def] using hlater
        · exact absurd (by simp [Meaning.Defined]) hm
    · -- the list is stuck here, and so is everything after it
      simp only [Meaning.Defined, not_not] at hm
      simp only [Seq.take, hm]
      exact hvanishes.bind

/-- the beginnings of a list, read one after another -/
def takes (E : Engine Empty Code Value) (ks : List Nat) (xs : Ref) : Host W Code Value (List (Outcome (List Value))) :=
  ks.mapM fun k => Host.attempt (take E k xs)

/-- Reading the beginnings of a list gives those of its sequence, whatever has been read before. -/
theorem takes_yield (hfits : Γ.Fits s.heap) (hcalm : Γ.Calm s.heap) (hlist : Γ.IsList xs q ranks) (ks : List Nat) :
    Yields Γ (fun n => takes (engine n) ks xs) s
      ((ks.mapM fun k => q.take k).map fun os => .ok (os.map fun o => List.map Value.int <$> o)) := by
  induction ks generalizing Γ s with
  | nil => exact ⟨Γ, s, .pure [] s, .refl hfits⟩
  | cons k ks ih =>
    have hfirst := takeFrom_yields hfits hcalm hlist [] k
    simp only [takes, List.mapM_cons]
    cases hk : q.take k with
    | none =>
      rw [hk] at hfirst
      exact Vanishes.bind (Vanishes.attempt hfirst)
    | some o =>
      rw [hk] at hfirst
      obtain ⟨Γ₁, t, hsettles, hgrows⟩ := hfirst
      refine Yields.bind hsettles.attempt hgrows ?_
      have hrest := ih hgrows.fits (hgrows.keeps_calm hcalm) (hlist.within hgrows.within)
      cases hks : ks.mapM fun k => q.take k with
      | none =>
        rw [hks] at hrest
        exact Vanishes.bind hrest
      | some os =>
        rw [hks] at hrest
        obtain ⟨Γ₂, t₂, hsettles', hgrows'⟩ := hrest
        exact ⟨Γ₂, t₂, hsettles'.bind (.pure _ t₂), hgrows'⟩

/-! ## Building -/

/-- the procedure makes the first cell of a list -/
def Makes (Γ : Legend) (x : Host W Code Value Ref) (s : Session W Code Value) (q : Seq) : Prop :=
  ∃ xs t Γ' bound, x s = .ok xs t ∧ Grows Γ s.heap Γ' t.heap ∧ Γ'.IsList xs q fun _ => bound

theorem Makes.bind {x : Host W Code Value Ref} {f : Ref → Host W Code Value Ref} {q' : Seq} (hfirst : Makes Γ x s q)
    (hrest : ∀ {xs t Γ'} {bound : Ordinal.{0}}, Grows Γ s.heap Γ' t.heap → (Γ'.IsList xs q fun _ => bound) →
      Makes Γ' (f xs) t q') :
    Makes Γ (x >>= f) s q' := by
  obtain ⟨xs, t, Γ₁, bound, hmade, hgrows, hlist⟩ := hfirst
  obtain ⟨ys, u, Γ₂, bound', hmade', hgrows', hlist'⟩ := hrest hgrows hlist
  refine ⟨ys, u, Γ₂, bound', ?_, hgrows.trans hgrows', hlist'⟩
  simp only [Bind.bind, EStateM.bind, hmade, hmade']

theorem elem_codes (Γ : Legend) (e : Elem) (rank : Ordinal.{0}) :
    Γ.Codes e.code (.atom (some (.int <$> e.outcome)) rank) := by
  cases e with
  | int n => exact .int n rank
  | failing e => exact .failing e rank

/-- a cell for an element, and then a list that may mention it -/
theorem makes_elem (e : Elem) {f : Ref → Host W Code Value Ref} (hfits : Γ.Fits s.heap)
    (hrest : ∀ {r t Γ'}, Grows Γ s.heap Γ' t.heap → Γ'.IsElem r e.outcome 0 → Makes Γ' (f r) t q) :
    Makes Γ (Host.delay (fun _ => e.code) >>= f) s q := by
  have hgrows := grows_delay hfits (elem_codes (Γ.add s.heap.size _) e 0)
  obtain ⟨xs, t, Γ', bound, hmade, hgrows', hlist⟩ :=
    hrest (t := ⟨s.heap.push (.pending e.code), s.events, s.world⟩) hgrows (isElem_add _ _ _ _)
  exact ⟨xs, t, Γ', bound, hmade, hgrows.trans hgrows', hlist⟩

theorem makes_ready (hfits : Γ.Fits s.heap) {v : Value} (bound : Ordinal.{0})
    (hanswers : (Γ.add s.heap.size (.list q fun _ => bound)).Answers (.ok v) (.list q fun _ => bound)) :
    Makes Γ (Host.ready v) s q :=
  ⟨_, _, _, bound, rfl, grows_ready hfits hanswers, isList_add _ _ _ _⟩

theorem makes_delay (hfits : Γ.Fits s.heap) {code : Ref → Code} {bound : Ordinal.{0}} (ranks : Nat → Ordinal.{0})
    (hlow : ∀ i, ranks i ≤ bound)
    (hcodes : (Γ.add s.heap.size (.list q ranks)).Codes (code s.heap.size) (.list q ranks)) :
    Makes Γ (Host.delay code) s q :=
  ⟨_, _, _, bound, rfl, grows_delay hfits hcodes, (isList_add _ _ _ _).le hlow⟩

theorem consAll_makes (elems : List Elem) {tail : Ref} {last : Node} {bound : Ordinal.{0}} (hfits : Γ.Fits s.heap)
    (hlist : Γ.IsList tail (.finite [] last) fun _ => bound) : Makes Γ (consAll tail elems) s (.finite elems last) := by
  induction elems generalizing Γ s with
  | nil => exact ⟨tail, s, Γ, bound, rfl, .refl hfits, hlist⟩
  | cons e elems ih =>
    refine makes_elem e hfits fun hgrows₁ helem => ?_
    refine Makes.bind (ih hgrows₁.fits (hlist.within hgrows₁.within)) fun {rest t Γ₂ high} hgrows₂ hlist₂ => ?_
    have hw := within_add hgrows₂.fits (.list (.finite (e :: elems) last) fun _ => high)
    refine makes_ready hgrows₂.fits high (.cons rfl ?_ ?_)
    · exact (helem.within (hgrows₂.within.trans hw)).le zero_le
    · rw [Seq.finite_drop]
      exact hlist₂.within hw

theorem sieve_makes (hfits : Γ.Fits s.heap) {bound : Ordinal.{0}} (hlist : Γ.IsList xs q fun _ => bound) :
    Makes Γ (Host.delay fun _ => .sieve xs) s q.sieve := by
  have hw := within_add hfits (.list q.sieve fun _ => bound + Ordinal.omega0)
  -- every element that is kept adds one more filter, so no finite distance is enough
  have hlimit := Ordinal.isSuccLimit_add bound Ordinal.isSuccLimit_omega0
  exact makes_delay hfits _ (fun _ => le_rfl) (.sieve (hlist.within hw) (fun _ => le_rfl)
    (fun _ => lt_add_of_pos_right bound Ordinal.omega0_pos) fun _ _ => hlimit.succ_lt)

/-- Every described list is built. -/
theorem build_makes (b : Blueprint) (hfits : Γ.Fits s.heap) : Makes Γ b.build s b.seq := by
  induction b generalizing Γ s with
  | literal elems =>
    exact Makes.bind (makes_ready hfits 0 (.nil rfl _)) fun hgrows hlist => consAll_makes elems hgrows.fits hlist
  | broken elems e =>
    exact Makes.bind (makes_delay hfits (fun _ => 0) (fun _ => le_rfl) (.broken rfl _)) fun hgrows hlist =>
      consAll_makes elems hgrows.fits hlist
  | upFrom n => exact makes_delay hfits (fun _ => 0) (fun _ => le_rfl) (.upFrom n _)
  | tail b ih =>
    refine Makes.bind (ih hfits) fun {xs t Γ' bound} hgrows hlist => ?_
    have hw := within_add hgrows.fits (.list b.seq.tail fun _ => Order.succ bound)
    exact makes_delay hgrows.fits _ (fun _ => le_rfl)
      (.tail (hlist.within hw) (Order.lt_succ _) fun _ => Order.lt_succ _)
  | filter p b ih =>
    refine makes_elem p hfits fun hgrows₁ helem => ?_
    refine Makes.bind (ih hgrows₁.fits) fun {xs t Γ₂ bound} hgrows₂ hlist => ?_
    have hw := within_add hgrows₂.fits (.list (b.seq.filter p.outcome) fun _ => Order.succ (Order.succ bound))
    have hhigh : Order.succ bound < Order.succ (Order.succ bound) := Order.lt_succ _
    exact makes_delay hgrows₂.fits _ (fun _ => le_rfl) (.filter ((helem.within (hgrows₂.within.trans hw)).le zero_le)
      (hlist.within hw) (fun _ => hhigh) fun _ _ => hhigh)
  | zip b c ihb ihc =>
    refine Makes.bind (ihb hfits) fun {xs t Γ₁ left} hgrows₁ hfirst => ?_
    refine Makes.bind (ihc hgrows₁.fits) fun {ys t Γ₂ right} hgrows₂ hsecond => ?_
    have hw := within_add hgrows₂.fits (.list (.zip b.seq c.seq) fun _ => Order.succ (max left right))
    exact makes_delay hgrows₂.fits _ (fun _ => le_rfl)
      (.zip (hfirst.within (hgrows₂.within.trans hw)) (hsecond.within hw)
      (fun _ => Order.lt_succ_of_le (le_max_left _ _)) fun _ => Order.lt_succ_of_le (le_max_right _ _))
  | zipSelf b ih =>
    refine Makes.bind (ih hfits) fun {xs t Γ' bound} hgrows hlist => ?_
    have hw := within_add hgrows.fits (.list (.zip b.seq b.seq) fun _ => Order.succ bound)
    exact makes_delay hgrows.fits _ (fun _ => le_rfl)
      (.zip (hlist.within hw) (hlist.within hw) (fun _ => Order.lt_succ _)
      fun _ => Order.lt_succ _)
  | sieve b ih => exact Makes.bind (ih hfits) fun hgrows hlist => sieve_makes hgrows.fits hlist
  | fibs =>
    -- the tail that the list is added to ranks between two positions
    refine makes_delay hfits (fun i => (2 * i : Nat)) (fun i => (Ordinal.natCast_lt_omega0 (2 * i)).le)
      (.fibs (isList_add _ _ _ _) fun i => ?_)
    rw [Order.succ_eq_add_one]
    exact_mod_cast (by omega : 2 * i + 1 < 2 * (i + 1))
  | ones => exact makes_delay hfits (fun _ => 0) (fun _ => le_rfl) (.ones (isList_add _ _ _ _) fun _ => le_rfl)

/-! ## Lists and their sequences -/

theorem mapM_eq_some_iff {f : α → Option β} {xs : List α} {ys : List β} :
    xs.mapM f = some ys ↔ ys.map some = xs.map f := by
  induction xs generalizing ys with
  | nil => cases ys <;> simp
  | cons x xs ih =>
    simp only [List.mapM_cons, Option.bind_eq_bind, Option.bind_eq_some_iff, Option.pure_def, Option.some.injEq,
      List.map_cons, List.map_eq_cons_iff, ih]
    constructor
    · rintro ⟨y, hy, ys, hys, rfl⟩
      exact ⟨y, ys, rfl, hy.symm, hys⟩
    · rintro ⟨y, ys, rfl, hy, hys⟩
      exact ⟨y, hy.symm, ys, hys, rfl⟩

theorem exists_mapM {f : α → Option β} {xs : List α} (hpresent : ∀ x ∈ xs, f x ≠ none) : ∃ ys, xs.mapM f = some ys := by
  induction xs with
  | nil => exact ⟨[], rfl⟩
  | cons x xs ih =>
    obtain ⟨y, hy⟩ := Option.ne_none_iff_exists'.1 (hpresent x List.mem_cons_self)
    obtain ⟨ys, hys⟩ := ih fun x' hx' => hpresent x' (List.mem_cons_of_mem x hx')
    exact ⟨y :: ys, by simp [List.mapM_cons, hy, hys]⟩

/-- **Reading a list.** Every described list can be built, in every session. If its beginnings are read one after
another and nothing is cut off on the way, each gives the beginning of the sequence; and all of them can be read if the
sequence has them, given enough steps. -/
theorem takes_meet_sequence (b : Blueprint) (ks : List Nat) (s : Session W Code Value) :
    ∃ xs t, b.build s = .ok xs t ∧
      (∀ fuel results t', takes (engine fuel) ks xs t = .ok results t' →
        results.map some = ks.map fun k => (b.seq.take k).map (List.map Value.int <$> ·)) ∧
      ((∀ k ∈ ks, b.seq.take k ≠ none) →
        ∃ steps, ∀ fuel ≥ steps, ∃ results t', takes (engine fuel) ks xs t = .ok results t') := by
  have hfits : Legend.Fits (fun _ => none) s.heap := ⟨nofun, nofun, nofun⟩
  obtain ⟨xs, t, Γ, bound, hmade, hgrows, hlist⟩ := build_makes b hfits
  have hyields := takes_yield hgrows.fits (hgrows.keeps_calm nofun) hlist ks
  refine ⟨xs, t, hmade, ?_, ?_⟩
  · intro fuel results t' hended
    rw [← attempt_ok_iff] at hended
    cases hks : ks.mapM fun k => b.seq.take k with
    | none =>
      rw [hks] at hyields
      exact absurd hended (hyields fuel _ _)
    | some os =>
      rw [hks] at hyields
      obtain ⟨Γ', u, hsettles, -⟩ := hyields
      obtain ⟨hresults, -⟩ := hsettles.only hended
      cases hresults
      have heach := congrArg (List.map (Option.map (List.map Value.int <$> ·))) (mapM_eq_some_iff.1 hks)
      simpa only [List.map_map, Function.comp_def, Option.map_some] using heach
  · intro hdefined
    obtain ⟨os, hos⟩ := exists_mapM hdefined
    rw [hos] at hyields
    obtain ⟨Γ', u, hsettles, -⟩ := hyields
    obtain ⟨steps, henough⟩ := hsettles.ends
    exact ⟨steps, fun fuel hfuel => ⟨_, u, attempt_ok_iff.1 (henough fuel hfuel)⟩⟩

/-- the list 2, 4, 3 with an end that fails, sieved and then added to the Fibonacci list -/
def sieved : Blueprint := .zip (.sieve (.broken [.int 2, .int 4, .int 3] .overflow)) .fibs

theorem sieved_seq :
    sieved.seq 0 = .item (.ok 2) ∧ sieved.seq 1 = .item (.ok 4) ∧ sieved.seq 2 = .failed .overflow := by
  have hpassed : Seq.filter (.ok 2) (.finite [.int 4, .int 3] (.failed .overflow)) =
      .filter (.ok 2) (.finite [.int 3] (.failed .overflow)) := by
    rw [Seq.filter_dropped (by decide), Seq.finite_drop]
  have hsecond : Seq.filter (.ok 2) (.finite [.int 3] (.failed .overflow)) 0 = .item (.ok 3) :=
    Seq.filter_kept (by decide)
  have hthird : (Seq.filter (.ok 2) (.finite [.int 3] (.failed .overflow))).drop 1 0 = .failed .overflow := by
    rw [Seq.filter_drop (by decide), Seq.finite_drop]
    exact Seq.filter_kept (by decide)
  have hsieve : (Seq.sieve (.finite [.int 2, .int 4, .int 3] (.failed .overflow))).drop 1 =
      Seq.sieve (.filter (.ok 2) (.finite [.int 3] (.failed .overflow))) := by
    rw [Seq.sieve_drop rfl, Seq.finite_drop]
    exact congrArg Seq.sieve hpassed
  have hfront : Seq.sieve (.finite [.int 2, .int 4, .int 3] (.failed .overflow)) 1 = .item (.ok 3) :=
    (congrFun hsieve 0).trans hsecond
  have hlast : (Seq.sieve (.filter (.ok 2) (.finite [.int 3] (.failed .overflow)))).drop 1 0 = .failed .overflow := by
    rw [Seq.sieve_drop hsecond]
    refine (Seq.filter_kept ?_).trans ?_
    · rw [hthird]; exact id
    · rw [hthird]; rfl
  have hrear : Seq.sieve (.finite [.int 2, .int 4, .int 3] (.failed .overflow)) 2 = .failed .overflow :=
    (congrFun hsieve 1).trans hlast
  refine ⟨rfl, ?_, ?_⟩
  · simp only [sieved, Blueprint.seq, Seq.zip, hfront]
    rfl
  · simp only [sieved, Blueprint.seq, Seq.zip, hrear]

/-- its first two elements, all of it, and nothing of it -/
theorem takes_meet_sequence_sieved :
    ∃ xs t, sieved.build ⟨#[], [], ()⟩ = .ok xs t ∧ ∃ steps, ∀ fuel ≥ steps, ∃ t',
      takes (engine fuel) [2, 5, 0] xs t = .ok [.ok [.int 2, .int 4], .error .overflow, .ok []] t' := by
  obtain ⟨hfirst, hsecond, hthird⟩ := sieved_seq
  have htwo : sieved.seq.take 2 = some (.ok [2, 4]) := by simp [Seq.take, hfirst, hsecond]
  have hfive : sieved.seq.take 5 = some (.error .overflow) := by simp [Seq.take, hfirst, hsecond, hthird]
  have hzero : sieved.seq.take 0 = some (.ok []) := rfl
  obtain ⟨xs, t, hmade, hgives, hends⟩ := takes_meet_sequence sieved [2, 5, 0] (⟨#[], [], ()⟩ : Session Unit Code Value)
  obtain ⟨steps, henough⟩ := hends (by simp [htwo, hfive, hzero])
  refine ⟨xs, t, hmade, steps, fun fuel hfuel => ?_⟩
  obtain ⟨results, t', hended⟩ := henough fuel hfuel
  have hresults := hgives fuel results t' hended
  simp only [List.map_cons, List.map_nil, htwo, hfive, hzero, Option.map_some] at hresults
  obtain rfl : results = [.ok [.int 2, .int 4], .error .overflow, .ok []] :=
    List.map_injective_iff.2 (Option.some_injective _) hresults
  exact ⟨t', hended⟩

end Demo

end ByNeed
