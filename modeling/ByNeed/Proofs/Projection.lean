/-
Code that finds a part of a value.

A projection asks for one cell. It passes the error of that cell on, and from its value it goes on with the cell of a
part, or finds that there is no such part. Its own cell and the cell of the part are then claimed by one walk. If what it
asks for is at work already when it is handed out, because the code of the whole or of the part has asked for it, it is a
black hole and stays one.
- `Projecting.step`: the phases of a projection, wherever it is asked for, an abort at any time included.
- `Projecting.asked`: as long as it is the code of the projection that asks, it asks for the whole, and for the part.
- `Projecting.halts`: in the end it is a black hole if what it asked for was at work before it, and else it has the error
  of the whole, or one and the same outcome as the part (`Settled`).
- `series_projection`: so it is over any sequence of forces from outside.
-/
import ByNeed.Proofs.Hidden
import ByNeed.Proofs.Series

namespace ByNeed

variable {C V : Type}

/-- what a projection does with the answer it gets: `pick` finds the part of a value -/
def Comp.pass {T C V : Type} (pick : V → Outcome Ref) : Outcome V → Comp T C V (Next C V)
  | .error e => .fail e
  | .ok v =>
    match pick v with
    | .error e => .fail e
    | .ok f => .done (.cell f)

/-! ## What a projection comes to -/

/-- what a projection asks for: the whole, and the part of its value -/
def Sought (h : Heap Unit C V) (r : Ref) (pick : V → Outcome Ref) (q : Ref) : Prop :=
  q = r ∨ ∃ v, h[r]? = some (.value v) ∧ pick v = .ok q

/-- the cell `a` of a projection has the error of the whole, an error because there is no such part, or the outcome of
the part -/
inductive Reports (h : Heap Unit C V) (a r : Ref) (pick : V → Outcome Ref) : Outcome V → Prop where
  | failed {e : EvalError} (hwhole : h[r]? = some (.failed e)) (hown : h[a]? = some (.failed e)) :
      Reports h a r pick (.error e)
  | refused {v : V} {e : EvalError} (hwhole : h[r]? = some (.value v)) (hnone : pick v = .error e)
      (hown : h[a]? = some (.failed e)) : Reports h a r pick (.error e)
  | leads {v : V} {f : Ref} {o : Outcome V} (hwhole : h[r]? = some (.value v)) (hpart : pick v = .ok f)
      (hown : h[a]? = some (.ofOutcome o)) (hshared : h[f]? = some (.ofOutcome o)) : Reports h a r pick o

/-- what a projection has come to that was handed out while the cells `busy` were at work -/
inductive Settled (h : Heap Unit C V) (a r : Ref) (pick : V → Outcome Ref) (busy : List Ref) : Outcome V → Prop where
  | follows {o : Outcome V} (hfree : ∀ q, Sought h r pick q → q ∉ busy) (hreports : Reports h a r pick o) :
      Settled h a r pick busy o
  | hole {q : Ref} (hsought : Sought h r pick q) (hbusy : q ∈ busy) (hown : h[a]? = some (.failed .blackHole)) :
      Settled h a r pick busy (.error .blackHole)

section

variable {h h' : Heap Unit C V} {a r q : Ref} {pick : V → Outcome Ref} {busy : List Ref} {o : Outcome V}

theorem Reports.own (hreports : Reports h a r pick o) : h[a]? = some (.ofOutcome o) := by
  cases hreports with
  | failed hwhole hown => exact hown
  | refused hwhole hnone hown => exact hown
  | leads hwhole hpart hown hshared => exact hown

theorem Reports.whole (hreports : Reports h a r pick o) : ∃ x : Outcome V, h[r]? = some (.ofOutcome x) := by
  cases hreports with
  | failed hwhole hown => exact ⟨.error _, hwhole⟩
  | refused hwhole hnone hown => exact ⟨.ok _, hwhole⟩
  | leads hwhole hpart hown hshared => exact ⟨.ok _, hwhole⟩

theorem Settled.own (hsettled : Settled h a r pick busy o) : h[a]? = some (.ofOutcome o) := by
  cases hsettled with
  | follows hfree hreports => exact hreports.own
  | hole hsought hbusy hown => exact hown

theorem free_of (hwhole : r ∉ busy) (hpart : ∀ v f, h[r]? = some (.value v) → pick v = .ok f → f ∉ busy) (q : Ref)
    (hsought : Sought h r pick q) : q ∉ busy := by
  rcases hsought with rfl | ⟨v, hvalue, hpick⟩
  · exact hwhole
  · exact hpart v q hvalue hpick

theorem Settled.failed {e : EvalError} (hwhole : h[r]? = some (.failed e)) (hown : h[a]? = some (.failed e))
    (hfree : r ∉ busy) : Settled h a r pick busy (.error e) := by
  refine .follows (free_of hfree fun v f hvalue => ?_) (.failed hwhole hown)
  rw [hwhole] at hvalue
  cases hvalue

theorem Settled.refused {v : V} {e : EvalError} (hwhole : h[r]? = some (.value v)) (hnone : pick v = .error e)
    (hown : h[a]? = some (.failed e)) (hfree : r ∉ busy) : Settled h a r pick busy (.error e) := by
  refine .follows (free_of hfree fun w f hvalue hpick => ?_) (.refused hwhole hnone hown)
  rw [hwhole] at hvalue
  cases hvalue
  rw [hnone] at hpick
  cases hpick

theorem Settled.leads {v : V} {f : Ref} (hwhole : h[r]? = some (.value v)) (hpart : pick v = .ok f)
    (hown : h[a]? = some (.ofOutcome o)) (hshared : h[f]? = some (.ofOutcome o)) (hfree : r ∉ busy ∧ f ∉ busy) :
    Settled h a r pick busy o := by
  refine .follows (free_of hfree.1 fun w f' hvalue hpick => ?_) (.leads hwhole hpart hown hshared)
  rw [hwhole] at hvalue
  cases hvalue
  rw [hpart] at hpick
  cases hpick
  exact hfree.2

/-- what a projection has come to stays so while cells keep their outcomes -/
theorem Settled.keeps (hkeeps : ∀ (x : Ref) (y : Outcome V), h[x]? = some (.ofOutcome y) → h'[x]? = some (.ofOutcome y))
    (hsettled : Settled h a r pick busy o) : Settled h' a r pick busy o := by
  cases hsettled with
  | follows hfree hreports =>
    have hfree' : ∀ q, Sought h' r pick q → q ∉ busy := by
      obtain ⟨x, hx⟩ := hreports.whole
      refine free_of (hfree r (.inl rfl)) fun v f hvalue hpick => hfree f (.inr ⟨v, ?_, hpick⟩)
      rw [hkeeps r x hx] at hvalue
      rwa [hvalue] at hx
    refine .follows hfree' ?_
    cases hreports with
    | @failed e hwhole hown => exact .failed (hkeeps r (.error e) hwhole) (hkeeps a (.error e) hown)
    | @refused v e hwhole hnone hown => exact .refused (hkeeps r (.ok v) hwhole) hnone (hkeeps a (.error e) hown)
    | @leads v f o hwhole hpart hown hshared =>
      exact .leads (hkeeps r (.ok v) hwhole) hpart (hkeeps a o hown) (hkeeps f o hshared)
  | hole hsought hbusy hown =>
    refine .hole (hsought.imp_right fun ⟨v, hvalue, hpick⟩ => ⟨v, hkeeps r (.ok v) hvalue, hpick⟩) hbusy ?_
    exact hkeeps a (.error .blackHole) hown

end

namespace Machine

/-! ## The phases of a projection -/

/-- how the code of a projection ends while the cells are as in `h` -/
inductive Verdict (h : Heap Unit C V) (r : Ref) (pick : V → Outcome Ref) : Outcome (Tail V) → Prop where
  | failed {e : EvalError} (hknown : h.claim r = (.outcome (.error e), h)) : Verdict h r pick (.error e)
  | refused {v : V} {e : EvalError} (hwhole : h[r]? = some (.value v)) (hnone : pick v = .error e) :
      Verdict h r pick (.error e)
  | leads {v : V} {f : Ref} (hwhole : h[r]? = some (.value v)) (hpart : pick v = .ok f) :
      Verdict h r pick (.ok (.cell f))

/-- the cells at work when a walk with the cells `rs` goes on to another cell -/
def below (rs : List Ref) (base : List (Frame Empty C V)) : List Ref := rs ++ base.flatMap Frame.claimed

/-- the projection `a` has been handed out to a walk with the cells `rs` -/
inductive Projecting (a r : Ref) (pick : V → Outcome Ref) (rs : List Ref) (base : List (Frame Empty C V)) :
    Machine C V → Prop where
  | starts {h : Heap Unit C V} {events : List String} :
      Projecting a r pick rs base ⟨h, events, .run (.force r (.pass pick)), .walk (a :: rs) :: base⟩
  | asks {h : Heap Unit C V} {events : List String} :
      Projecting a r pick rs base ⟨h, events, .demand r, .resume (.pass pick) :: .walk (a :: rs) :: base⟩
  | waits {m : Machine C V} {qs : List Ref} (hfirst : qs.getLast? = some r)
      (hinside : Inside qs (.resume (.pass pick) :: .walk (a :: rs) :: base) m) : Projecting a r pick rs base m
  | answered {h : Heap Unit C V} {events : List String} {o : Outcome V} (hknown : h.claim r = (.outcome o, h)) :
      Projecting a r pick rs base ⟨h, events, .give o, .resume (.pass pick) :: .walk (a :: rs) :: base⟩
  | resumes {h : Heap Unit C V} {events : List String} {o : Outcome V} (hknown : h.claim r = (.outcome o, h)) :
      Projecting a r pick rs base ⟨h, events, .run (.pass pick o), .walk (a :: rs) :: base⟩
  | ends {h : Heap Unit C V} {events : List String} {t : Outcome (Tail V)} (hverdict : Verdict h r pick t) :
      Projecting a r pick rs base ⟨h, events, .ended t, .walk (a :: rs) :: base⟩
  /-- the walk has gone on to the part, and perhaps further -/
  | onward {m : Machine C V} {qs : List Ref} {v : V} {f : Ref} (hwhole : m.heap[r]? = some (.value v))
      (hpart : pick v = .ok f) (hinside : Inside (qs ++ f :: a :: rs) base m) : Projecting a r pick rs base m
  | settled {m : Machine C V} {o : Outcome V} (hsettled : Settled m.heap a r pick (below rs base) o) :
      Projecting a r pick rs base m
  | cutEarly {m : Machine C V} {text : String} (hunwound : m.control = .unwind text) (hown : Doomed m a)
      (hwhole : Doomed m r) (hfree : r ∉ below rs base) : Projecting a r pick rs base m
  | cutLate {m : Machine C V} {text : String} {v : V} {f : Ref} (hunwound : m.control = .unwind text)
      (hwhole : m.heap[r]? = some (.value v)) (hpart : pick v = .ok f) (hown : Doomed m a) (hshared : Doomed m f)
      (hfree : r ∉ below rs base ∧ f ∉ below rs base) : Projecting a r pick rs base m

/-- busy cells are at work, and everything that is mentioned is a cell -/
structure Sound (E : Engine Empty C V) (P : Sight C V) (r : Ref) (m : Machine C V) : Prop where
  held : Held m.heap fun _ => m.held
  tight : Tight (fun _ => False) m.heap fun _ => m.held
  heap : P.OpenHeap m.heap
  next : P.Guarded (m.step E)
  whole : r < m.heap.size

section

variable {E : Engine Empty C V} {P : Sight C V} {m m' : Machine C V} {base : List (Frame Empty C V)} {rs : List Ref}
  {h : Heap Unit C V} {events : List String} {a r q f : Ref} {c : C} {v : V} {o : Outcome V} {pick : V → Outcome Ref}
  {t : Outcome (Tail V)} {text : String}

theorem Sound.step (hrespected : P.Respected E) (hsound : Sound E P r m) : Sound E P r (m.step E) := by
  obtain ⟨d, heffect, -⟩ := step_effect E m
  exact ⟨held_step E hsound.held, heffect.tight (fun o ho => absurd rfl ho) hsound.tight, hsound.next.heap,
    hsound.next.step hrespected, hsound.whole.trans_le (size_step E m)⟩

/-- a cell with an outcome is not at work -/
theorem Sound.not_held (hsound : Sound E P r m) (hstored : m.heap[q]? = some (.ofOutcome o)) : q ∉ m.held := by
  intro hmem
  rw [hsound.held.busy () q hmem] at hstored
  cases o <;> cases hstored

/-- a cell that answers has an outcome or is at work -/
theorem Sound.answer (hsound : Sound E P r m) (hinside : q < m.heap.size)
    (hanswer : m.heap.claim q = (.outcome o, m.heap)) :
    m.heap[q]? = some (.ofOutcome o) ∨ o = .error .blackHole ∧ q ∈ m.held := by
  rcases m.heap.claim_cases q with ⟨c, -, heq⟩ | ⟨x, heq, hstored | ⟨rfl, hbusy | houtside⟩⟩
  · rw [heq] at hanswer
    cases hanswer
  · rw [heq] at hanswer
    cases hanswer
    exact .inl (Heap.outcome?_eq_some.1 hstored)
  · rw [heq] at hanswer
    cases hanswer
    exact .inr ⟨rfl, (hsound.tight q () hbusy).resolve_right id⟩
  · exact absurd (Array.getElem?_eq_none_iff.1 houtside) (Nat.not_le.2 hinside)

theorem Decides.answer (hdecides : Decides h (.ok (.cell f)) o) : h.claim f = (.outcome o, h) := by
  cases hdecides with
  | stored houtcome => exact Heap.claim_of_outcome houtcome
  | inProgress hbusy => simp [Heap.claim, hbusy]
  | nowhere hnone => simp [Heap.claim, hnone]

/-- the code of the projection has ended, and its walk with it -/
theorem Projecting.settles (hparts : ∀ v f, pick v = .ok f → f ∈ P.value v)
    (hsound : Sound E P r ⟨h, events, .ended t, .walk (a :: rs) :: base⟩) (hverdict : Verdict h r pick t)
    (hdecides : Decides h t o)
    (heq : Machine.step E ⟨h, events, .ended t, .walk (a :: rs) :: base⟩ =
      ⟨h.settleAll o (a :: rs), events, .give o, base⟩) :
    Settled (h.settleAll o (a :: rs)) a r pick (below rs base) o := by
  have hall : held ⟨h, events, .ended t, .walk (a :: rs) :: base⟩ = a :: below rs base := by
    simp [Machine.held, Frame.claimed, below]
  have hnodup : (a :: below rs base).Nodup := hall ▸ hsound.held.nodup ()
  have hout : a ∉ below rs base := (List.nodup_cons.1 hnodup).1
  have hbusy : h[a]? = some (.busy ()) := hsound.held.busy () a (hall ▸ List.mem_cons_self)
  have hown : (h.settleAll o (a :: rs))[a]? = some (.ofOutcome o) :=
    Heap.getElem?_settleAll_of_mem List.mem_cons_self hbusy
  have hkeeps : ∀ {x : Ref} {y : Outcome V}, h[x]? = some (.ofOutcome y) →
      (h.settleAll o (a :: rs))[x]? = some (.ofOutcome y) := fun hstored => by
    have hlater := keeps_step E hsound.held hstored
    rwa [heq] at hlater
  have hidle : ∀ {x : Ref} {y : Outcome V}, h[x]? = some (.ofOutcome y) → x ∉ below rs base := fun hstored hmem =>
    hsound.not_held hstored (hall ▸ List.mem_cons_of_mem a hmem)
  cases hverdict with
  | @failed e hknown =>
    cases hdecides
    rcases hsound.answer hsound.whole hknown with hstored | ⟨hhole, hmem⟩
    · exact .failed (hkeeps (y := .error e) hstored) hown (hidle hstored)
    · cases hhole
      rcases List.mem_cons.1 (hall ▸ hmem) with rfl | hmem
      · exact .failed hown hown hout
      · exact .hole (.inl rfl) hmem hown
  | @refused v e hwhole hnone =>
    cases hdecides
    exact .refused (hkeeps (y := .ok v) hwhole) hnone hown (hidle (y := .ok v) hwhole)
  | @leads v f hwhole hpart =>
    have hwhole' := hkeeps (y := .ok v) hwhole
    have hthere : f < h.size := (hsound.heap.cells r _ hwhole f (hparts v f hpart)).1
    have hfree : r ∉ below rs base := hidle (y := .ok v) hwhole
    rcases hsound.answer hthere hdecides.answer with hstored | ⟨rfl, hmem⟩
    · exact .leads hwhole' hpart hown (hkeeps hstored) ⟨hfree, hidle hstored⟩
    · rcases List.mem_cons.1 (hall ▸ hmem) with rfl | hmem
      · exact .leads hwhole' hpart hown hown ⟨hfree, hout⟩
      · exact .hole (.inr ⟨v, hwhole', hpart⟩) hmem hown

/-- while the projection waits, the walk for the whole goes on, answers or is cut off -/
theorem waits_step {qs : List Ref} (hheld : Held m.heap fun _ => m.held) (hfirst : qs.getLast? = some r)
    (hinside : Inside qs (.resume (.pass pick) :: .walk (a :: rs) :: base) m) :
    Projecting a r pick rs base (m.step E) := by
  have hmem : r ∈ qs := List.mem_of_getLast? hfirst
  obtain ⟨above, hall⟩ := hinside.held
  rcases hinside.step_cases (E := E) with hagain | ⟨text, hcut⟩ | ⟨h, events, t, rfl⟩
  · exact .waits hfirst hagain
  · obtain ⟨-, hsame⟩ := hinside.cut hcut
    have hnodup := hheld.nodup ()
    simp only [hall, List.flatMap_cons, Frame.claimed, List.nil_append, List.nodup_append] at hnodup
    refine .cutEarly hcut (.inl ?_) (.inl ?_) fun hbelow => ?_
    · simp [hsame, hall, Frame.claimed]
    · simp [hsame, hall, hmem]
    · exact hnodup.2.1.2.2 r hmem r (List.mem_cons_of_mem a hbelow) rfl
  · rcases step_ended_cases E h events t qs _ with ⟨q, c, -, -, heq⟩ | ⟨o, -, heq⟩
    · rw [heq]
      refine .waits ?_ (.running _)
      rw [List.getLast?_cons, hfirst]
      rfl
    · rw [heq]
      refine .answered (Heap.claim_of_outcome (Heap.outcome?_eq_some.2 ?_))
      refine Heap.getElem?_settleAll_of_mem hmem (hheld.busy () r ?_)
      simp [hall, hmem]

/-- the walk that has claimed the part goes on; its outcome is stored in the part and in the projection alike -/
theorem onward_step {qs : List Ref} (hsound : Sound E P r m) (hwhole : m.heap[r]? = some (.value v))
    (hpart : pick v = .ok f) (hinside : Inside (qs ++ f :: a :: rs) base m) :
    Projecting a r pick rs base (m.step E) := by
  have hwhole' : (m.step E).heap[r]? = some (.value v) := keeps_step (o := .ok v) E hsound.held hwhole
  obtain ⟨above, hall⟩ := hinside.held
  have hbelow : m.held = (above ++ qs) ++ f :: a :: below rs base := by simp [hall, below]
  have hfree : r ∉ below rs base ∧ f ∉ below rs base := by
    refine ⟨fun hmem => ?_, fun hmem => ?_⟩
    · refine hsound.not_held (o := .ok v) hwhole ?_
      rw [hbelow]
      exact List.mem_append_right _ (List.mem_cons_of_mem f (List.mem_cons_of_mem a hmem))
    · have hnodup := hsound.held.nodup ()
      rw [hbelow] at hnodup
      have hlater := (List.nodup_append.1 hnodup).2.1
      exact (List.nodup_cons.1 hlater).1 (List.mem_cons_of_mem a hmem)
  rcases hinside.step_cases (E := E) with hagain | ⟨text, hcut⟩ | ⟨h, events, t, rfl⟩
  · exact .onward hwhole' hpart hagain
  · obtain ⟨-, hsame⟩ := hinside.cut hcut
    refine .cutLate hcut hwhole' hpart (.inl ?_) (.inl ?_) hfree
    · simp [hsame, hall]
    · simp [hsame, hall]
  · rcases step_ended_cases E h events t (qs ++ f :: a :: rs) base with ⟨q, c, -, -, heq⟩ | ⟨o, -, heq⟩
    · rw [heq] at hwhole' ⊢
      exact .onward hwhole' hpart (.running _ : Inside ((q :: qs) ++ f :: a :: rs) base _)
    · have hsettled : ∀ x ∈ qs ++ f :: a :: rs, (h.settleAll o (qs ++ f :: a :: rs))[x]? = some (.ofOutcome o) := by
        intro x hx
        refine Heap.getElem?_settleAll_of_mem hx (hsound.held.busy () x ?_)
        rw [hall]
        exact List.mem_append_right _ (List.mem_append_left _ hx)
      rw [heq] at hwhole' ⊢
      exact .settled (.leads hwhole' hpart (hsettled a (by simp)) (hsettled f (by simp)) hfree)

/-- **A projection goes from phase to phase.** -/
theorem Projecting.step (hparts : ∀ v f, pick v = .ok f → f ∈ P.value v) (hsound : Sound E P r m)
    (hnow : Projecting a r pick rs base m) : Projecting a r pick rs base (m.step E) := by
  have hheld := hsound.held
  cases hnow with
  | starts => exact .asks
  | @asks h events =>
    rcases h.claim_cases r with ⟨c, -, heq⟩ | ⟨o, heq, -⟩
    · simp only [Machine.step, heq]
      exact .waits rfl (.running _)
    · simp only [Machine.step, heq]
      exact .answered heq
  | waits hfirst hinside => exact waits_step hheld hfirst hinside
  | answered hknown => exact .resumes hknown
  | @resumes h events o hknown =>
    cases o with
    | error e => exact .ends (.failed hknown)
    | ok v =>
      have hwhole := Heap.claim_ok_iff.1 hknown
      change Projecting a r pick rs base (request E h events (.walk (a :: rs) :: base) (.pass pick (.ok v)))
      cases hpart : pick v with
      | error e =>
        simp only [Comp.pass, hpart, request]
        exact .ends (.refused hwhole hpart)
      | ok f =>
        simp only [Comp.pass, hpart, request]
        exact .ends (.leads hwhole hpart)
  | @ends h events t hverdict =>
    rcases step_ended_cases E h events t (a :: rs) base with ⟨q, c, rfl, -, heq⟩ | ⟨o, hdecides, heq⟩
    · cases hverdict with
      | leads hwhole hpart =>
        have hwhole' := keeps_step (o := .ok _) E hheld hwhole
        rw [heq] at hwhole' ⊢
        exact .onward hwhole' hpart (.running _ : Inside ([] ++ _ :: a :: rs) base _)
    · have hsettled := Projecting.settles hparts hsound hverdict hdecides heq
      rw [heq]
      exact .settled hsettled
  | onward hwhole hpart hinside => exact onward_step hsound hwhole hpart hinside
  | settled hsettled => exact .settled (hsettled.keeps fun x y hstored => keeps_step E hheld hstored)
  | cutEarly hunwound hown hwhole hfree =>
    exact .cutEarly (step_of_unwind E hunwound) (hown.step hheld hunwound) (hwhole.step hheld hunwound) hfree
  | cutLate hunwound hwhole hpart hown hshared hfree =>
    exact .cutLate (step_of_unwind E hunwound) (keeps_step (o := .ok _) E hheld hwhole) hpart
      (hown.step hheld hunwound) (hshared.step hheld hunwound) hfree

theorem head?_ne_of_nodup {xs ys : List Ref} (hsome : xs ≠ []) (hnodup : (xs ++ a :: ys).Nodup) :
    (xs ++ a :: ys).head? ≠ some a := by
  cases xs with
  | nil => exact absurd rfl hsome
  | cons x xs =>
    intro hsame
    have hfirst : x = a := Option.some.inj hsame
    subst hfirst
    simp at hnodup

/-- As long as it is the code of the projection that asks, it asks for the whole, and then for the part. -/
theorem Projecting.asked (hsound : Sound E P r m) (hnow : Projecting a r pick rs base m) (hwanted : m.wanted? = some q)
    (hhead : m.held.head? = some a) : Sought m.heap r pick q := by
  have hnodup := hsound.held.nodup ()
  cases hnow with
  | starts => cases hwanted
  | asks => exact .inl (Option.some.inj hwanted).symm
  | @waits _ qs hfirst hinside =>
    obtain ⟨above, hall⟩ := hinside.held
    have hlast : m.held = (above ++ qs) ++ a :: below rs base := by simp [hall, Frame.claimed, below]
    have hsome : above ++ qs ≠ [] := List.ne_nil_of_mem (List.mem_append_right _ (List.mem_of_getLast? hfirst))
    simp only [hlast] at hnodup hhead
    exact absurd hhead (head?_ne_of_nodup hsome hnodup)
  | answered hknown => cases hwanted
  | resumes hknown => cases hwanted
  | ends hverdict =>
    cases hverdict with
    | failed hknown => cases hwanted
    | refused hwhole hnone => cases hwanted
    | leads hwhole hpart =>
      cases hwanted
      exact .inr ⟨_, hwhole, hpart⟩
  | @onward _ qs v f hwhole hpart hinside =>
    obtain ⟨above, hall⟩ := hinside.held
    have hlast : m.held = (above ++ qs ++ [f]) ++ a :: below rs base := by simp [hall, below]
    simp only [hlast] at hnodup hhead
    exact absurd hhead (head?_ne_of_nodup (by simp) hnodup)
  | settled hsettled => exact absurd (List.mem_of_head? hhead) (hsound.not_held hsettled.own)
  | cutEarly hunwound hown hwhole hfree => simp [wanted?, hunwound] at hwanted
  | cutLate hunwound hwhole hpart hown hshared hfree => simp [wanted?, hunwound] at hwanted

/-- at a halt, a projection has come to its end -/
theorem Projecting.halted (hnow : Projecting a r pick rs base m) (hhalt : m.halted = true) :
    ∃ o, Settled m.heap a r pick (below rs base) o := by
  have hnone : ∀ {qs base'}, ¬ Inside qs base' m := by
    intro qs base' hinside
    obtain ⟨frame, upper, hstack⟩ := hinside.on_base
    rw [stack_of_halted hhalt] at hstack
    cases hstack
  cases hnow with
  | starts => cases hhalt
  | asks => cases hhalt
  | waits hfirst hinside => exact absurd hinside hnone
  | answered hknown => cases hhalt
  | resumes hknown => cases hhalt
  | ends hverdict => cases hhalt
  | onward hwhole hpart hinside => exact absurd hinside hnone
  | settled hsettled => exact ⟨_, hsettled⟩
  | cutEarly hunwound hown hwhole hfree =>
    exact ⟨_, .failed (hwhole.poisoned hhalt) (hown.poisoned hhalt) hfree⟩
  | cutLate hunwound hwhole hpart hown hshared hfree =>
    exact ⟨.error .poisoned, .leads hwhole hpart (hown.poisoned hhalt) (hshared.poisoned hhalt) hfree⟩

theorem Halts.sought {n : Nat} {asks : List Ask} (hrun : Halts E n asks m m') (hheld : Held m.heap fun _ => m.held)
    (hsought : Sought m.heap r pick q) : Sought m'.heap r pick q := by
  refine hsought.imp_right fun ⟨v, hvalue, hpick⟩ => ⟨v, ?_, hpick⟩
  have hstored : m.heap.outcome? r = some (.ok v) := Heap.outcome?_eq_some.2 hvalue
  rw [((hrun.run .start).keeps hheld hstored).1, hvalue]

/-- **A projection that has been handed out** comes to an end with the run, and all that its code has asked for is the
whole and the part. -/
theorem Projecting.halts {n : Nat} {asks : List Ask} (hrespected : P.Respected E)
    (hparts : ∀ v f, pick v = .ok f → f ∈ P.value v) (hsound : Sound E P r m)
    (hnow : Projecting a r pick rs base m) (hrun : Halts E n asks m m') :
    (∃ o, Settled m'.heap a r pick (below rs base) o) ∧
      ∀ ask ∈ asks, ask.asker = some a → Sought m'.heap r pick ask.cell := by
  induction hrun with
  | here hhalt => exact ⟨hnow.halted hhalt, List.forall_mem_nil _⟩
  | @step n asks m m' hgoing hrest ih =>
    obtain ⟨hresult, hlater⟩ := ih (hsound.step hrespected) (hnow.step hparts hsound)
    refine ⟨hresult, List.forall_mem_append.2 ⟨fun ask hmem hasker => ?_, hlater⟩⟩
    obtain ⟨q, hwanted, rfl⟩ := Option.map_eq_some_iff.1 (Option.mem_toList.1 hmem)
    exact (Halts.step hgoing hrest).sought hsound.held (hnow.asked hsound hwanted hasker)

/-- what is asked for and has code is handed out to a walk -/
theorem step_wanted (E : Engine Empty C V) (hwanted : m.wanted? = some a) (hcode : m.heap[a]? = some (.pending c)) :
    ∃ rs base, m.held = below rs base ∧ m.step E =
      ⟨m.heap.setIfInBounds a (.busy ()), m.events, .run (E.body c), .walk (a :: rs) :: base⟩ := by
  obtain ⟨h, events, control, stack⟩ := m
  unfold wanted? at hwanted
  split at hwanted
  · rename_i hdemand
    cases hwanted
    cases hdemand
    exact ⟨[], stack, rfl, step_demand_of_code hcode events stack⟩
  · rename_i rs base hended hstack
    cases hwanted
    cases hended
    cases hstack
    refine ⟨rs, base, rfl, ?_⟩
    have hgranted : h.claim a = (.granted c, h.setIfInBounds a (.busy ())) := by simp [Heap.claim, hcode]
    simp only [Machine.step, conclude, hgranted]
  · cases hwanted

end

end Machine

/-! ## Projections over a series of forces -/

/-- the code `c` is a projection from `r`; `pick` finds nothing that its argument does not mention -/
structure Projection (E : Engine Empty C V) (P : Sight C V) (c : C) (r : Ref) (pick : V → Outcome Ref) : Prop where
  body : E.body c = .force r (.pass pick)
  whole : r ∈ P.code c
  part : ∀ v f, pick v = .ok f → f ∈ P.value v

/-- a projection has not been asked for, or it has come to an end after it was handed out -/
inductive Fate (h : Heap Unit C V) (a : Ref) (c : C) (r : Ref) (pick : V → Outcome Ref) (asks : List Ask) : Prop where
  | untouched (hcode : h[a]? = some (.pending c)) (hnever : ∀ ask ∈ asks, ask.cell ≠ a)
  | settled {ask : Ask} {o : Outcome V} (hmem : ask ∈ asks) (hcell : ask.cell = a) (hstarts : ask.starts = true)
      (hsettled : Settled h a r pick ask.busy o)

open Machine Host

section

variable {E : Engine Empty C V} {P : Sight C V} {h : Heap Unit C V} {m m' : Machine C V} {c : C} {a r q : Ref}
  {pick : V → Outcome Ref} {n : Nat} {asks asks' : List Ask}

/-- a projection that has its code is left alone, or handed out at some time on the way -/
theorem Projection.halts (hrespected : P.Respected E) (hproj : Projection E P c r pick) (hsound : Sound E P r m)
    (hcode : m.heap[a]? = some (.pending c)) (hrun : Halts E n asks m m') :
    Fate m'.heap a c r pick asks ∧ ∀ ask ∈ asks, ask.asker = some a → Sought m'.heap r pick ask.cell := by
  induction hrun with
  | here hhalt => exact ⟨.untouched hcode (List.forall_mem_nil _), List.forall_mem_nil _⟩
  | @step n asks m m' hgoing hrest ih =>
    have hidle : m.held.head? ≠ some a := fun hhead => by
      rw [hsound.held.busy () a (List.mem_of_head? hhead)] at hcode
      cases hcode
    have hnow : ∀ ask ∈ m.asked?.toList, ask.asker = some a → Sought m'.heap r pick ask.cell := by
      intro ask hmem hasker
      obtain ⟨q, -, rfl⟩ := Option.map_eq_some_iff.1 (Option.mem_toList.1 hmem)
      exact absurd hasker hidle
    by_cases hwanted : m.wanted? = some a
    · -- now it is handed out
      have hasked : m.asked? = some ⟨m.held, a, true⟩ := by
        simp [asked?, hwanted, granted?_of_code hwanted hcode]
      obtain ⟨rs, base, hbelow, heq⟩ := step_wanted E hwanted hcode
      have hphase : Projecting a r pick rs base (m.step E) := by
        rw [heq, hproj.body]
        exact .starts
      obtain ⟨⟨o, hsettled⟩, hlater⟩ := hphase.halts hrespected hproj.part (hsound.step hrespected) hrest
      rw [← hbelow] at hsettled
      have hmem : (⟨m.held, a, true⟩ : Ask) ∈ m.asked?.toList ++ asks := by simp [hasked]
      exact ⟨.settled hmem rfl rfl hsettled, List.forall_mem_append.2 ⟨hnow, hlater⟩⟩
    · have hungranted : m.granted? ≠ some a := fun hgranted =>
        hwanted (Option.filter_eq_some_iff.1 hgranted).1
      obtain ⟨d, heffect, hclaimed⟩ := step_effect E m
      have hcode' := heffect.keeps_code (hsound.held.busy ()) hcode fun hd => hungranted (hclaimed ▸ hd)
      obtain ⟨hfate, hlater⟩ := ih (hsound.step hrespected) hcode'
      refine ⟨?_, List.forall_mem_append.2 ⟨hnow, hlater⟩⟩
      cases hfate with
      | untouched hcode hnever =>
        refine .untouched hcode (List.forall_mem_append.2 ⟨fun ask hmem => ?_, hnever⟩)
        obtain ⟨q, hq, rfl⟩ := Option.map_eq_some_iff.1 (Option.mem_toList.1 hmem)
        rintro rfl
        exact hwanted hq
      | settled hmem hcell hstarts hsettled =>
        exact .settled (List.mem_append_right _ hmem) hcell hstarts hsettled

/-- where no cell is busy, a force from outside starts soundly -/
theorem sound_demand (hrespected : P.Respected E) (hcalm : h.Calm) (hheap : P.OpenHeap h) (hinside : r < h.size)
    (events : List String) (q : Ref) : Sound E P r ⟨h, events, .demand q, []⟩ :=
  ⟨held_of_idle rfl, fun x _ hbusy => absurd hbusy (hcalm x), hheap,
    Sight.guarded_demand hrespected hheap (List.forall_mem_nil _) q, hinside⟩

/-- One more force from outside. -/
theorem Fate.force (hrespected : P.Respected E) (hproj : Projection E P c r pick)
    {events : List String} (hsound : Sound E P r ⟨h, events, .demand q, []⟩) (hfate : Fate h a c r pick asks)
    (hrun : Halts E n asks' ⟨h, events, .demand q, []⟩ m) :
    Fate m.heap a c r pick (asks ++ asks') ∧
      ∀ ask ∈ asks', ask.asker = some a → Sought m.heap r pick ask.cell := by
  cases hfate with
  | untouched hcode hnever =>
    obtain ⟨hfate, hasked⟩ := hproj.halts hrespected hsound hcode hrun
    refine ⟨?_, hasked⟩
    cases hfate with
    | untouched hcode hnever' => exact .untouched hcode (List.forall_mem_append.2 ⟨hnever, hnever'⟩)
    | settled hmem hcell hstarts hsettled => exact .settled (List.mem_append_right _ hmem) hcell hstarts hsettled
  | @settled ask o hmem hcell hstarts hsettled =>
    have hbelow : below ask.busy ([] : List (Frame Empty C V)) = ask.busy := List.append_nil _
    have hphase : Projecting a r pick ask.busy [] ⟨h, events, .demand q, []⟩ := .settled (hbelow.symm ▸ hsettled)
    obtain ⟨⟨o', hsettled'⟩, hasked⟩ := hphase.halts hrespected hproj.part hsound hrun
    rw [hbelow] at hsettled'
    exact ⟨.settled (List.mem_append_left _ hmem) hcell hstarts hsettled', hasked⟩

end

/-- **Projections over a series.** Cells are forced from outside in any order and any number of times. A projection that
is asked for at some time is handed out once. If what it asks for was at work then, it is a black hole; if not, it has the
error of the whole or the outcome of the part. What its code asks for on the way is the whole and the part. -/
theorem series_projection {W : Type} {E : Engine Empty C V} {P : Sight C V} {c : C} {a r : Ref} {pick : V → Outcome Ref}
    {s s' : Session W C V} {answers : List (Ref × Option (Outcome V))} {asks : List Ask} (hrespected : P.Respected E)
    (hproj : Projection E P c r pick) (hcalm : s.heap.Calm) (hheap : P.OpenHeap s.heap)
    (hcode : s.heap[a]? = some (.pending c)) (hseries : Series E s answers asks s') :
    Fate s'.heap a c r pick asks ∧ ∀ ask ∈ asks, ask.asker = some a → Sought s'.heap r pick ask.cell := by
  have hinside : r < s.heap.size := (hheap.cells a _ hcode r hproj.whole).1
  have hall := Series.induction (motive := fun _ asks h _ => (h.Calm ∧ P.OpenHeap h ∧ r < h.size) ∧
    Fate h a c r pick asks ∧ ∀ ask ∈ asks, ask.asker = some a → Sought h r pick ask.cell)
    ⟨⟨hcalm, hheap, hinside⟩, .untouched hcode (List.forall_mem_nil _), List.forall_mem_nil _⟩ ?_ hseries
  · exact hall.2
  rintro answers asks h events q n asks' m x ⟨⟨hcalm, hheap, hinside⟩, hfate, hbefore⟩ hrun -
  have hsound := sound_demand hrespected hcalm hheap hinside events q
  obtain ⟨hfate', hnow⟩ := hfate.force hrespected hproj hsound hrun
  obtain ⟨k, starts, later, -, hrest⟩ := hrun.demand_step
  refine ⟨⟨(hrun.run .start).calm hcalm hrun.halted, (hheap.halts hrespected hrest).1, hinside.trans_le hrun.size_le⟩,
    hfate', List.forall_mem_append.2 ⟨fun ask hmem hasker => ?_, hnow⟩⟩
  exact hrun.sought hsound.held (hbefore ask hmem hasker)

end ByNeed
