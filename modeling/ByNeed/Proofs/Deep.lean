/-
Deep forcing.

Where a cell stands below a value is said by the structure of the values alone. Deep forcing meets the cells in the order
of their positions, depth first and from left to right, also where the code of one cell runs or fails others that are met
later.
- `tour_of_halts`: the cells in the end explain the way that was taken.
- `forceDeep_reaches`: deep forcing reaches everything, stops at the first failure, and does nothing when repeated.
-/
import ByNeed.Proofs.Normal
import Mathlib.Data.List.Lex

namespace ByNeed

open Host

variable {W : Type}

/-! ## Positions -/

/-- what stands one level below a value: what a cell holds, or what stands in the value -/
inductive Heap.Opens (h : Heap Unit Code Value) : Value → List Value → Prop where
  | cell {r : Ref} {v : Value} (hvalue : h[r]? = some (.value v)) : Opens h (.lazy r) [v]
  | value {v : Value} (hcell : ∀ r, v ≠ .lazy r) : Opens h v v.children

/-- the cell `q` stands below `v`, at the position that takes these items one after the other -/
inductive Heap.At (h : Heap Unit Code Value) : Value → List Nat → Ref → Prop where
  | here (r : Ref) : At h (.lazy r) [] r
  | item {v w : Value} {vs : List Value} {i : Nat} {path : List Nat} {q : Ref} (hopens : h.Opens v vs)
      (hitem : vs[i]? = some w) (hbelow : At h w path q) : At h v (i :: path) q

/-- values with the positions at which they stand -/
abbrev Places := List (List Nat × Value)

/-- the values that stand side by side below `path` -/
def placesAt (path : List Nat) (vs : List Value) : Places := vs.mapIdx fun i v => (path ++ [i], v)

def Places.work (places : Places) : List Ref := places.flatMap fun place => place.2.parts

/-- everything below the first position comes before everything below the second one -/
def LeftOf (a b : List Nat) : Prop := ∀ x y : List Nat, a ++ x < b ++ y

/-- the cell `q` stands at `path`, below one of the places -/
def Places.Under (h : Heap Unit Code Value) (places : Places) (path : List Nat) (q : Ref) : Prop :=
  ∃ p v rest, (p, v) ∈ places ∧ path = p ++ rest ∧ h.At v rest q

/-- Over cells that stay as they are, the cells that deep forcing meets with their positions, and the error that it stops
with, if it does not go on until no place is left. -/
inductive Tour (h : Heap Unit Code Value) : Places → List (List Nat × Ref) → Option EvalError → Prop where
  | done : Tour h [] [] none
  | stop {path : List Nat} {r : Ref} {e : EvalError} {rest : Places} (hanswer : h.claim r = (.outcome (.error e), h)) :
      Tour h ((path, .lazy r) :: rest) [(path, r)] (some e)
  | next {path : List Nat} {r : Ref} {v : Value} {rest : Places} {row : List (List Nat × Ref)}
      {failure : Option EvalError} (hvalue : h[r]? = some (.value v))
      (hafter : Tour h (placesAt path [v] ++ rest) row failure) :
      Tour h ((path, .lazy r) :: rest) ((path, r) :: row) failure
  | pass {path : List Nat} {v : Value} {rest : Places} {row : List (List Nat × Ref)} {failure : Option EvalError}
      (hcell : ∀ r, v ≠ .lazy r) (hafter : Tour h (placesAt path v.children ++ rest) row failure) :
      Tour h ((path, v) :: rest) row failure

section

variable {h : Heap Unit Code Value} {places rest : Places} {row : List (List Nat × Ref)} {failure : Option EvalError}
  {path pos : List Nat} {q r : Ref} {v w : Value} {vs ws : List Value}

theorem LeftOf.lt {a b : List Nat} (hleft : LeftOf a b) (y : List Nat) : a < b ++ y := by
  simpa using hleft [] y

theorem LeftOf.extend {a b : List Nat} (hleft : LeftOf a b) (rest : List Nat) : LeftOf (a ++ rest) b := by
  intro x y
  rw [List.append_assoc]
  exact hleft (rest ++ x) y

theorem leftOf_items {i j : Nat} (hij : i < j) (path : List Nat) : LeftOf (path ++ [i]) (path ++ [j]) := by
  intro x y
  rw [List.append_assoc, List.append_assoc]
  exact List.append_left_lt (List.Lex.rel hij)

theorem lt_below (path : List Nat) (i : Nat) (rest : List Nat) : path < path ++ i :: rest := by
  have hempty : path ++ [] < path ++ i :: rest := List.append_left_lt (List.nil_lt_cons i rest)
  rwa [List.append_nil] at hempty

theorem mem_placesAt : (pos, v) ∈ placesAt path vs ↔ ∃ i, pos = path ++ [i] ∧ vs[i]? = some v := by
  simp only [placesAt, List.mem_mapIdx, Prod.mk.injEq]
  constructor
  · rintro ⟨i, hi, rfl, rfl⟩
    exact ⟨i, rfl, List.getElem?_eq_getElem hi⟩
  · rintro ⟨i, rfl, hitem⟩
    obtain ⟨hi, rfl⟩ := List.getElem?_eq_some_iff.1 hitem
    exact ⟨i, hi, rfl, rfl⟩

theorem work_placesAt (path : List Nat) (vs : List Value) (rest : Places) :
    (placesAt path vs ++ rest).work = vs.flatMap Value.parts ++ rest.work := by
  have hvalues : (placesAt path vs).map Prod.snd = vs := by
    apply List.ext_getElem <;> simp [placesAt]
  rw [Places.work, List.flatMap_append]
  conv_rhs => rw [← hvalues, List.flatMap_map]
  rfl

theorem Heap.Opens.unique (hopens : h.Opens v vs) (hopens' : h.Opens v ws) : vs = ws := by
  cases hopens with
  | cell hvalue =>
    cases hopens' with
    | cell hvalue' =>
      rw [hvalue] at hvalue'
      cases hvalue'
      rfl
    | value hcell => exact absurd rfl (hcell _)
  | value hcell =>
    cases hopens' with
    | cell hvalue => exact absurd rfl (hcell _)
    | value => rfl

/-- places that stand side by side still do so when the first one gives way to what stands below it -/
theorem pairwise_placesAt (hapart : ((path, v) :: rest).Pairwise fun a b => LeftOf a.1 b.1) (vs : List Value) :
    (placesAt path vs ++ rest).Pairwise fun a b => LeftOf a.1 b.1 := by
  obtain ⟨hfirst, hothers⟩ := List.pairwise_cons.1 hapart
  refine List.pairwise_append.2 ⟨?_, hothers, fun a ha b hb => ?_⟩
  · rw [placesAt, List.pairwise_iff_getElem]
    intro i j hi hj hij
    simpa using leftOf_items hij path
  · obtain ⟨i, hi, -⟩ := mem_placesAt.1 ha
    rw [hi]
    exact (hfirst b hb).extend [i]

/-- Under a value stands the value itself, if it is a cell, and what stands under the values one level below. -/
theorem under_cons_iff (hopens : h.Opens v vs) : Places.Under h ((path, v) :: rest) pos q ↔
    (pos = path ∧ v = .lazy q) ∨ Places.Under h (placesAt path vs ++ rest) pos q := by
  constructor
  · rintro ⟨p, v', below, hmem, rfl, hstands⟩
    rcases List.mem_cons.1 hmem with hfirst | hmem
    · cases hfirst
      cases hstands with
      | here => exact .inl ⟨List.append_nil _, rfl⟩
      | @item _ w vs' i below _ hopens' hitem hstands =>
        obtain rfl := hopens.unique hopens'
        refine .inr ⟨path ++ [i], w, below, List.mem_append_left _ (mem_placesAt.2 ⟨i, rfl, hitem⟩), ?_, hstands⟩
        simp
    · exact .inr ⟨p, v', below, List.mem_append_right _ hmem, rfl, hstands⟩
  · rintro (⟨rfl, rfl⟩ | ⟨p, w, below, hmem, rfl, hstands⟩)
    · exact ⟨pos, .lazy q, [], List.mem_cons_self, (List.append_nil _).symm, .here q⟩
    · rcases List.mem_append.1 hmem with hmem | hmem
      · obtain ⟨i, rfl, hitem⟩ := mem_placesAt.1 hmem
        exact ⟨path, v, i :: below, List.mem_cons_self, by simp, .item hopens hitem hstands⟩
      · exact ⟨p, w, below, List.mem_cons_of_mem _ hmem, rfl, hstands⟩

/-- Everything that comes after the first place stands to its right or below it. -/
theorem lt_of_under (hapart : ((path, v) :: rest).Pairwise fun a b => LeftOf a.1 b.1) (vs : List Value)
    (hunder : Places.Under h (placesAt path vs ++ rest) pos q) : path < pos := by
  obtain ⟨p, w, below, hmem, rfl, -⟩ := hunder
  rcases List.mem_append.1 hmem with hmem | hmem
  · obtain ⟨i, rfl, -⟩ := mem_placesAt.1 hmem
    simpa using lt_below path i below
  · exact ((List.pairwise_cons.1 hapart).1 _ hmem).lt below

namespace Tour

theorem under (htour : Tour h places row failure) : ∀ a ∈ row, Places.Under h places a.1 a.2 := by
  induction htour with
  | done => simp
  | @stop path r e rest hanswer =>
    intro a ha
    rw [List.mem_singleton.1 ha]
    exact ⟨path, .lazy r, [], List.mem_cons_self, (List.append_nil _).symm, .here r⟩
  | next hvalue hafter ih =>
    intro a ha
    rw [under_cons_iff (.cell hvalue)]
    rcases List.mem_cons.1 ha with rfl | ha
    · exact .inl ⟨rfl, rfl⟩
    · exact .inr (ih a ha)
  | pass hcell hafter ih =>
    intro a ha
    rw [under_cons_iff (.value hcell)]
    exact .inr (ih a ha)

/-- the cells are met from left to right, depth first -/
theorem sorted (htour : Tour h places row failure) (hapart : places.Pairwise fun a b => LeftOf a.1 b.1) :
    row.Pairwise fun a b => a.1 < b.1 := by
  induction htour with
  | done => exact .nil
  | stop hanswer => exact List.pairwise_singleton _ _
  | next hvalue hafter ih =>
    refine .cons (fun a ha => ?_) (ih (pairwise_placesAt hapart _))
    exact lt_of_under hapart _ (hafter.under a ha)
  | pass hcell hafter ih => exact ih (pairwise_placesAt hapart _)

/-- no cell is left out, save those after a failure -/
theorem covers (htour : Tour h places row failure) (hapart : places.Pairwise fun a b => LeftOf a.1 b.1)
    (hunder : Places.Under h places pos q) :
    (pos, q) ∈ row ∨ failure ≠ none ∧ ∀ a ∈ row, a.1 < pos := by
  induction htour with
  | done =>
    obtain ⟨p, v, below, hmem, -⟩ := hunder
    cases hmem
  | @stop path r e rest hanswer =>
    obtain ⟨p, v, below, hmem, rfl, hstands⟩ := hunder
    rcases List.mem_cons.1 hmem with hfirst | hmem
    · cases hfirst
      cases hstands with
      | here => simp
      | item hopens hitem hstands =>
        cases hopens with
        | cell hvalue =>
          rw [Heap.claim_ok_iff.2 hvalue] at hanswer
          cases hanswer
        | value hcell => exact absurd rfl (hcell r)
    · refine .inr ⟨nofun, fun a ha => ?_⟩
      rw [List.mem_singleton.1 ha]
      exact ((List.pairwise_cons.1 hapart).1 _ hmem).lt below
  | next hvalue hafter ih =>
    rcases (under_cons_iff (.cell hvalue)).1 hunder with ⟨rfl, hsame⟩ | hunder
    · cases hsame
      exact .inl List.mem_cons_self
    · refine (ih (pairwise_placesAt hapart _) hunder).imp (List.mem_cons_of_mem _) fun ⟨hfailed, hbefore⟩ =>
        ⟨hfailed, ?_⟩
      exact List.forall_mem_cons.2 ⟨lt_of_under hapart _ hunder, hbefore⟩
  | pass hcell hafter ih =>
    rcases (under_cons_iff (.value hcell)).1 hunder with ⟨-, hsame⟩ | hunder
    · exact absurd hsame (hcell q)
    · exact ih (pairwise_placesAt hapart _) hunder

/-- a tour to the end has met values only -/
theorem values (htour : Tour h places row none) : ∀ a ∈ row, ∃ w, h[a.2]? = some (.value w) := by
  generalize hend : none = failure at htour
  induction htour with
  | done => simp
  | stop hanswer => cases hend
  | next hvalue hafter ih => exact List.forall_mem_cons.2 ⟨⟨_, hvalue⟩, ih hend⟩
  | pass hcell hafter ih => exact ih hend

/-- a tour that stops has met values only, up to the last cell, where the error is -/
theorem stops {e : EvalError} (htour : Tour h places row (some e)) :
    ∃ before last, row = before ++ [last] ∧ h.claim last.2 = (.outcome (.error e), h) ∧
      ∀ a ∈ before, ∃ w, h[a.2]? = some (.value w) := by
  generalize hstop : some e = failure at htour
  induction htour with
  | done => cases hstop
  | stop hanswer =>
    cases hstop
    exact ⟨[], _, rfl, hanswer, by simp⟩
  | next hvalue hafter ih =>
    obtain ⟨before, last, rfl, hanswer, hvalues⟩ := ih hstop
    exact ⟨_ :: before, last, rfl, hanswer, List.forall_mem_cons.2 ⟨⟨_, hvalue⟩, hvalues⟩⟩
  | pass hcell hafter ih => exact ih hstop

end Tour

end

/-! ## Runs and tours -/

/-- the steps of deep forcing over cells that answer at once -/
def Tour.steps (row : List (List Nat × Ref)) : Option EvalError → Nat
  | none => 3 * row.length + 1
  | some _ => 3 * row.length

section

open Machine

variable {E : Engine Empty Code Value} {h h' : Heap Unit Code Value} {top : Value} {x : Outcome Value}
  {places rest : Places} {row : List (List Nat × Ref)} {failure : Option EvalError} {n : Nat}
  {events events' : List String} {asks : List Ask}

/-- a tour over the final heap that explains a run of `n` steps: it meets the cells that were asked for -/
def Explains (h' : Heap Unit Code Value) (top : Value) (x : Outcome Value) (places : Places) (n : Nat)
    (asks : List Ask) : Prop :=
  ∃ row failure, Tour h' places row failure ∧ x = failure.elim (.ok top) .error ∧
    row.map Prod.snd = Ask.outer asks ∧ Tour.steps row failure ≤ n

/-- all runs over these places, with at most `n` steps, are explained by tours -/
def Explained (E : Engine Empty Code Value) (h' : Heap Unit Code Value) (events' : List String) (top : Value)
    (x : Outcome Value) (n : Nat) (places : Places) : Prop :=
  ∀ h events asks, Halts E n asks ⟨h, events, .traverse top places.work, []⟩ ⟨h', events', .give x, []⟩ →
    Explains h' top x places n asks

/-- one more cell: it is asked for, and what it holds comes next -/
theorem explained_cell (hparts : ∀ v, E.parts v = v.parts)
    (hfewer : ∀ k < n, ∀ places, Explained E h' events' top x k places) (path : List Nat) (r : Ref) (rest : Places) :
    Explained E h' events' top x n ((path, .lazy r) :: rest) := by
  intro h events asks hrun
  have hwork : Places.work ((path, .lazy r) :: rest) = r :: rest.work := by simp [Places.work, Value.parts]
  rw [hwork] at hrun
  obtain ⟨n₁, asks₁, m₁, hfirst, hlater⟩ := halts_traverse_cons_iff.1 hrun
  obtain ⟨hpositive, houter, hhalt⟩ := hfirst.demand_cases
  rcases hlater with ⟨v, n₂, asks₂, hgiven, hlater, rfl, rfl⟩ | ⟨hstopped, rfl, rfl, rfl⟩
  · rcases hhalt with ⟨h₁, events₁, o, rfl, hanswer⟩ | ⟨h₁, events₁, text, rfl⟩
    · cases hgiven
      have hvalue := hlater.keeps rfl (Heap.claim_ok_iff.1 hanswer)
      have hnext : Places.work (placesAt path [v] ++ rest) = E.parts v ++ rest.work := by
        rw [work_placesAt, List.flatMap_singleton, hparts]
      rw [← hnext] at hlater
      obtain ⟨row, failure, htour, hending, hcells, hsteps⟩ := hfewer n₂ (by omega) _ _ _ _ hlater
      refine ⟨(path, r) :: row, failure, .next hvalue htour, hending, ?_, ?_⟩
      · rw [List.map_cons, hcells, Ask.outer_append, houter]
        rfl
      · cases failure <;> simp only [Tour.steps, List.length_cons] at hsteps ⊢ <;> omega
    · cases hgiven
  · rcases hhalt with ⟨h₁, events₁, o, hended, hanswer⟩ | ⟨h₁, events₁, text, hended⟩
    · cases hended
      rcases hstopped with ⟨e, hgiven⟩ | ⟨text, hunwound⟩
      · cases hgiven
        refine ⟨[(path, r)], some e, .stop hanswer, rfl, houter.symm, ?_⟩
        simp only [Tour.steps, List.length_singleton]
        omega
      · cases hunwound
    · cases hended

/-- one more value: what stands in it comes first -/
theorem explained_cons (hparts : ∀ v, E.parts v = v.parts)
    (hfewer : ∀ k < n, ∀ places, Explained E h' events' top x k places) (path : List Nat) (v : Value)
    (hrest : Explained E h' events' top x n rest) : Explained E h' events' top x n ((path, v) :: rest) := by
  induction v using Value.induction generalizing path rest with
  | node v ih =>
    by_cases hcell : ∃ r, v = .lazy r
    · obtain ⟨r, rfl⟩ := hcell
      exact explained_cell hparts hfewer path r rest
    · have hcell : ∀ r, v ≠ .lazy r := fun r hr => hcell ⟨r, hr⟩
      have hitems : ∀ items : Places, (∀ item ∈ items, item.2 ∈ v.children) →
          Explained E h' events' top x n (items ++ rest) := by
        intro items hmem
        induction items with
        | nil => exact hrest
        | cons item items ihItems =>
          obtain ⟨hfirst, hothers⟩ := List.forall_mem_cons.1 hmem
          exact ih item.2 hfirst item.1 (ihItems hothers)
      intro h events asks hrun
      have hwork : Places.work ((path, v) :: rest) = (placesAt path v.children ++ rest).work := by
        rw [work_placesAt, ← Value.parts_eq hcell]
        rfl
      rw [hwork] at hrun
      have hplaces : ∀ item ∈ placesAt path v.children, item.2 ∈ v.children := fun item hitem => by
        obtain ⟨i, -, hfound⟩ := mem_placesAt.1 hitem
        exact List.mem_of_getElem? hfound
      obtain ⟨row, failure, htour, hwhole⟩ := hitems _ hplaces h events asks hrun
      exact ⟨row, failure, .pass hcell htour, hwhole⟩

/-- **The cells in the end explain the way.** When deep forcing has come to its end, the cells that it asked for are those
that a tour over the final heap meets, in the same order. -/
theorem tour_of_halts (hparts : ∀ v, E.parts v = v.parts)
    (hrun : Halts E n asks ⟨h, events, .traverse top places.work, []⟩ ⟨h', events', .give x, []⟩) :
    Explains h' top x places n asks := by
  suffices hall : ∀ places, Explained E h' events' top x n places from hall places h events asks hrun
  clear hrun
  induction n using Nat.strongRecOn with
  | ind n hfewer =>
    intro places
    induction places with
    | nil =>
      intro h events asks hrun
      obtain ⟨rfl, rfl, hended⟩ := halts_traverse_nil_iff.1 hrun
      cases hended
      exact ⟨[], none, .done, rfl, rfl, le_rfl⟩
    | cons place places ih => exact explained_cons hparts hfewer place.1 place.2 ih

/-- **Again.** Over cells that all answer, deep forcing goes the same way, and no code runs. -/
theorem Tour.halts (hparts : ∀ v, E.parts v = v.parts) (htour : Tour h places row failure) (top : Value)
    (events : List String) :
    ∃ asks, Halts E (Tour.steps row failure) asks ⟨h, events, .traverse top places.work, []⟩
        ⟨h, events, .give (failure.elim (.ok top) .error), []⟩ ∧ ∀ ask ∈ asks, ask.starts = false := by
  induction htour with
  | done => exact ⟨[], halts_traverse_nil_iff.2 ⟨rfl, rfl, rfl⟩, by simp⟩
  | @stop path r e rest hanswer =>
    have hasked := halts_demand_of_answer E hanswer events
    have hwork : Places.work ((path, .lazy r) :: rest) = r :: rest.work := by simp [Places.work, Value.parts]
    rw [hwork]
    exact ⟨_, halts_traverse_cons_iff.2 ⟨1, _, _, hasked, .inr ⟨.inl ⟨_, rfl⟩, rfl, rfl, rfl⟩⟩, by simp⟩
  | @next path r v rest row failure hvalue hafter ih =>
    obtain ⟨asks, hlater, hquiet⟩ := ih
    have hwork : Places.work ((path, .lazy r) :: rest) = r :: rest.work := by simp [Places.work, Value.parts]
    rw [work_placesAt, List.flatMap_singleton, ← hparts] at hlater
    rw [hwork]
    have hasked := halts_demand_of_answer E (Heap.claim_ok_iff.2 hvalue) events
    refine ⟨_, halts_traverse_cons_iff.2 ⟨1, _, _, hasked, .inl ⟨v, _, asks, rfl, hlater, ?_, rfl⟩⟩, ?_⟩
    · cases failure <;> simp only [Tour.steps, List.length_cons] <;> omega
    · simpa using hquiet
  | @pass path v rest row failure hcell hafter ih =>
    rw [work_placesAt, ← Value.parts_eq hcell] at ih
    exact ih

end

/-! ## Deep forces and tours -/

namespace Host

open Machine

variable {E : Engine Empty Code Value} {r : Ref} {s s' : Session W Code Value} {x : Outcome Value}
  {row : List (List Nat × Ref)} {failure : Option EvalError}

/-- A deep force that has ended with an outcome was a tour over the cells as they are then. -/
theorem tour_of_forceDeep (hparts : ∀ v, E.parts v = v.parts) (hended : forceDeep E r s = ofOutcome x s') :
    ∃ row failure, Tour s'.heap [([], .lazy r)] row failure ∧ row.map Prod.snd = Ask.outer (deepAsks E r s) ∧
      (∀ v, x = .ok v → failure = none ∧ s'.heap[r]? = some (.value v)) ∧ (∀ e, x = .error e → failure = some e) ∧
      2 ≤ E.fuel ∧ Tour.steps row failure < E.fuel + 3 := by
  have henough :
      ∀ s'', (ofOutcome x s' : EStateM.Result Stop (Session W Code Value) Value) ≠ .error .exhausted s'' := by
    cases x <;> intro s'' hexhausted <;> cases hexhausted
  obtain ⟨n₁, hn₁, asks₁, m₁, hfirst, hrest⟩ := forceDeep_iff.1 ⟨hended, rfl, henough⟩
  obtain ⟨hpositive, houter, hanswered⟩ := hfirst.demand_cases
  rcases hrest with ⟨hstopped, hrequests, hends⟩ | ⟨v, hgiven, n₂, hn₂, asks₂, m₂, hlater, hrequests, hends⟩
  · -- the cell itself fails
    obtain ⟨hgiven, rfl⟩ := ends_ofOutcome_iff.1 hends
    rcases hanswered with ⟨h₁, events₁, o, rfl, hanswer⟩ | ⟨h₁, events₁, text, rfl⟩
    · cases hgiven
      obtain ⟨e, hfailed⟩ | ⟨text, hunwound⟩ := hstopped
      · cases hfailed
        refine ⟨[([], r)], some e, .stop hanswer, ?_, nofun, fun e' hsame => ?_, by omega, ?_⟩
        · rw [hrequests, houter]
          rfl
        · cases hsame
          rfl
        · simp only [Tour.steps, List.length_singleton]
          omega
      · cases hunwound
    · cases hgiven
  · -- the cell has a value, whose parts come next
    rcases hanswered with ⟨h₁, events₁, o, rfl, hanswer⟩ | ⟨h₁, events₁, text, rfl⟩
    · cases hgiven
      obtain ⟨hcontrol, rfl⟩ := ends_ofOutcome_iff.1 hends
      have hidle := stack_of_halted hlater.halted
      have hvalue := hlater.keeps rfl (Heap.claim_ok_iff.1 hanswer)
      obtain ⟨h₂, events₂, _, _⟩ := m₂
      cases hcontrol
      cases hidle
      have hwork : E.parts v = Places.work (placesAt [] [v] ++ []) := by
        rw [work_placesAt, List.flatMap_singleton, hparts]
        exact (List.append_nil _).symm
      rw [hwork] at hlater
      obtain ⟨row, failure, htour, hending, hcells, hsteps⟩ := tour_of_halts hparts hlater
      refine ⟨([], r) :: row, failure, .next hvalue htour, ?_, fun w hsame => ?_, fun e hsame => ?_, by omega, ?_⟩
      · rw [List.map_cons, hcells, hrequests, Ask.outer_append, houter]
        rfl
      · cases failure with
        | none =>
          cases hending.symm.trans hsame
          exact ⟨rfl, hvalue⟩
        | some e => cases hending.symm.trans hsame
      · cases failure with
        | none => cases hending.symm.trans hsame
        | some e' => cases hending.symm.trans hsame; rfl
      · cases failure <;> simp only [Tour.steps, List.length_cons] at hsteps ⊢ <;> omega
    · cases hgiven

/-- A deep force over cells that all answer runs no code, and the session stays as it is. -/
theorem forceDeep_of_tour (hparts : ∀ v, E.parts v = v.parts) (htour : Tour s.heap [([], .lazy r)] row failure)
    (hfuel : 2 ≤ E.fuel) (henough : Tour.steps row failure < E.fuel + 3) :
    (∀ ask ∈ deepAsks E r s, ask.starts = false) ∧
      (∀ v, s.heap[r]? = some (.value v) → forceDeep E r s = ofOutcome (failure.elim (.ok v) .error) s) ∧
      ∀ e, failure = some e → forceDeep E r s = .error (.failed e) s := by
  cases htour with
  | @stop _ _ e _ hanswer =>
    have hasked := halts_demand_of_answer E hanswer s.events
    obtain ⟨hended, hrequests, -⟩ := forceDeep_iff.2
      ⟨1, hfuel, _, _, hasked, .inl ⟨.inl ⟨e, rfl⟩, rfl, ends_ofOutcome_iff.2 ⟨rfl, rfl⟩⟩⟩
    refine ⟨by simp [hrequests], fun v hvalue => ?_, fun e' hsame => ?_⟩
    · rw [Heap.claim_ok_iff.2 hvalue] at hanswer
      cases hanswer
    · cases hsame
      exact hended
  | @next _ _ v _ row _ hvalue hafter =>
    obtain ⟨asks, hlater, hquiet⟩ := hafter.halts hparts v s.events
    have hwork : Places.work (placesAt [] [v] ++ []) = E.parts v := by
      rw [work_placesAt, List.flatMap_singleton, hparts]
      exact List.append_nil _
    rw [hwork] at hlater
    have hasked := halts_demand_of_answer E (Heap.claim_ok_iff.2 hvalue) s.events
    have hwithin : Tour.steps row failure < E.fuel := by
      cases failure <;> simp only [Tour.steps, List.length_cons] at henough ⊢ <;> omega
    obtain ⟨hended, hrequests, -⟩ := forceDeep_iff.2
      ⟨1, hfuel, _, _, hasked, .inr ⟨v, rfl, _, hwithin, _, _, hlater, rfl, ends_ofOutcome_iff.2 ⟨rfl, rfl⟩⟩⟩
    refine ⟨by simpa [hrequests] using hquiet, fun w hvalue' => ?_, fun e hsame => ?_⟩
    · rw [hvalue] at hvalue'
      cases hvalue'
      exact hended
    · subst hsame
      exact hended
  | pass hcell => exact absurd rfl (hcell r)

end Host

/-- `cells` are the cells at the positions below `v` that are picked, depth first and from left to right -/
def Heap.Visits (h : Heap Unit Code Value) (v : Value) (picked : List Nat → Prop) (cells : List Ref) : Prop :=
  ∃ row : List (List Nat × Ref), row.map Prod.snd = cells ∧ (row.Pairwise fun a b => a.1 < b.1) ∧
    ∀ path q, (path, q) ∈ row ↔ h.At v path q ∧ picked path

/-- the cell holds the error; where there is no cell, that is a black hole -/
def Heap.Fails {C V : Type} (h : Heap Unit C V) (r : Ref) (e : EvalError) : Prop :=
  h[r]? = some (.failed e) ∨ h[r]? = none ∧ e = .blackHole

theorem Heap.Calm.fails {C V : Type} {h : Heap Unit C V} {r : Ref} {e : EvalError} (hcalm : h.Calm)
    (hanswer : h.claim r = (.outcome (.error e), h)) : h.Fails r e := by
  rcases h.claim_cases r with ⟨c, -, hgranted⟩ | ⟨o, hanswer', hstored | ⟨rfl, hbusy | houtside⟩⟩
  · rw [hgranted] at hanswer
    cases hanswer
  · rw [hanswer'] at hanswer
    cases hanswer
    exact .inl (outcome?_eq_some.1 hstored)
  · exact absurd hbusy (hcalm r)
  · rw [hanswer'] at hanswer
    cases hanswer
    exact .inr ⟨houtside, rfl⟩

theorem Heap.status_of_value {C V : Type} {h : Heap Unit C V} {r : Ref} {v : V} (hvalue : h[r]? = some (.value v)) :
    h.status r = .evaluated := by
  simp [status, hvalue, Cell.status]

section

variable {h : Heap Unit Code Value} {v : Value} {q : Ref} {row : List (List Nat × Ref)} {path : List Nat}
  {e : EvalError}

theorem under_root_iff : Places.Under h [([], v)] path q ↔ h.At v path q := by
  simp [Places.Under]

/-- a tour to the end visits everything -/
theorem Tour.visits_all (htour : Tour h [([], v)] row none) :
    h.Visits v (fun _ => True) (row.map Prod.snd) ∧ ∀ path q, h.At v path q → h.status q = .evaluated := by
  have hapart : [(([] : List Nat), v)].Pairwise fun a b => LeftOf a.1 b.1 := List.pairwise_singleton _ _
  have hall : ∀ path q, h.At v path q → (path, q) ∈ row := fun path q hstands =>
    (htour.covers hapart (under_root_iff.2 hstands)).resolve_right fun hstopped => hstopped.1 rfl
  refine ⟨⟨row, rfl, htour.sorted hapart, fun path q => ⟨fun hmem => ?_, fun hstands => hall path q hstands.1⟩⟩,
    fun path q hstands => ?_⟩
  · exact ⟨under_root_iff.1 (htour.under _ hmem), trivial⟩
  · obtain ⟨w, hvalue⟩ := htour.values _ (hall path q hstands)
    exact Heap.status_of_value hvalue

/-- a tour that stops visits everything up to the cell with the error, and nothing else has failed before -/
theorem Tour.visits_first (htour : Tour h [([], v)] row (some e)) :
    ∃ path q, h.At v path q ∧ h.claim q = (.outcome (.error e), h) ∧ h.Visits v (· ≤ path) (row.map Prod.snd) ∧
      ∀ path' q', h.At v path' q' → path' < path → h.status q' = .evaluated := by
  have hapart : [(([] : List Nat), v)].Pairwise fun a b => LeftOf a.1 b.1 := List.pairwise_singleton _ _
  obtain ⟨before, ⟨path, q⟩, rfl, hanswer, hvalues⟩ := htour.stops
  have hsorted := htour.sorted hapart
  have hearlier : ∀ a ∈ before, a.1 < path := fun a ha =>
    (List.pairwise_append.1 hsorted).2.2 a ha _ (List.mem_singleton_self _)
  have hmet : ∀ path' q', h.At v path' q' → path' ≤ path → (path', q') ∈ before ++ [(path, q)] := by
    intro path' q' hstands hupTo
    refine (htour.covers hapart (under_root_iff.2 hstands)).resolve_right fun ⟨_, hlater⟩ => ?_
    exact absurd (hlater (path, q) (by simp)) (not_lt_of_ge hupTo)
  refine ⟨path, q, under_root_iff.1 (htour.under (path, q) (by simp)), hanswer, ?_, ?_⟩
  · refine ⟨_, rfl, hsorted, fun path' q' => ⟨fun hmem => ⟨under_root_iff.1 (htour.under _ hmem), ?_⟩, fun h => ?_⟩⟩
    · rcases List.mem_append.1 hmem with hmem | hmem
      · exact (hearlier _ hmem).le
      · cases List.mem_singleton.1 hmem
        exact le_rfl
    · exact hmet path' q' h.1 h.2
  · intro path' q' hstands hbefore
    rcases List.mem_append.1 (hmet path' q' hstands hbefore.le) with hmem | hmem
    · obtain ⟨w, hvalue⟩ := hvalues _ hmem
      exact Heap.status_of_value hvalue
    · cases List.mem_singleton.1 hmem
      exact absurd hbefore (lt_irrefl _)

end

namespace Host

/-- a deep force is a force and then normalizing, by the type of the value -/
theorem forcesDeep_normal (S : Scope) (fuel : Nat) (r : Ref) : ForcesDeep (W := W) (S.engine fuel) r =
    (Forces (S.engine fuel) r).andThen fun v => (Normal (S.engine fuel) v).andThen fun _ => Trace.pure v := by
  have hsame : ∀ v, Normal (W := W) (S.engine fuel) v = Covers (S.engine fuel) v v.parts := fun v => by
    funext s asks result
    exact propext (normal_iff_covers fun _ => rfl)
  simp only [hsame]
  exact forcesDeep_covers

/-- **Deep forcing.** A deep force is a force and then normalizing, by the type of each value that is met. Let no cell be
busy. If it gives a value, every cell below is evaluated, and outside the code of cells those cells were asked for, depth
first and from left to right. If it fails, the error is that of the first cell in this order that has failed: all cells
at positions before it are evaluated, and it is the last one that was asked for outside the code of cells. Either way, the
deep force repeated gives the same, runs no code and leaves the session as it is. -/
theorem forceDeep_reaches (S : Scope) (fuel : Nat) (r : Ref) (s : Session W Code Value) (hcalm : s.heap.Calm) :
    (ForcesDeep (W := W) (S.engine fuel) r =
      (Forces (S.engine fuel) r).andThen fun v => (Normal (S.engine fuel) v).andThen fun _ => Trace.pure v) ∧
    (∀ v s', forceDeep (S.engine fuel) r s = .ok v s' →
      s'.heap[r]? = some (.value v) ∧
      (∀ path q, s'.heap.At (.lazy r) path q → s'.heap.status q = .evaluated) ∧
      s'.heap.Visits (.lazy r) (fun _ => True) (Ask.outer (deepAsks (S.engine fuel) r s)) ∧
      forceDeep (S.engine fuel) r s' = .ok v s' ∧ ∀ ask ∈ deepAsks (S.engine fuel) r s', ask.starts = false) ∧
    ∀ e s', forceDeep (S.engine fuel) r s = .error (.failed e) s' →
      ∃ path q, s'.heap.At (.lazy r) path q ∧ s'.heap.Fails q e ∧
        (∀ path' q', s'.heap.At (.lazy r) path' q' → path' < path → s'.heap.status q' = .evaluated) ∧
        s'.heap.Visits (.lazy r) (· ≤ path) (Ask.outer (deepAsks (S.engine fuel) r s)) ∧
        forceDeep (S.engine fuel) r s' = .error (.failed e) s' ∧
        ∀ ask ∈ deepAsks (S.engine fuel) r s', ask.starts = false := by
  have hparts : ∀ v, (S.engine fuel).parts v = v.parts := fun _ => rfl
  refine ⟨forcesDeep_normal S fuel r, ?_, ?_⟩
  · intro v s' hended
    obtain ⟨row, failure, htour, hcells, hsuccess, -, hfuel, henough⟩ := tour_of_forceDeep (x := .ok v) hparts hended
    obtain ⟨rfl, hvalue⟩ := hsuccess v rfl
    obtain ⟨hvisits, hevaluated⟩ := htour.visits_all
    obtain ⟨hquiet, hagain, -⟩ := forceDeep_of_tour hparts htour hfuel henough
    rw [hcells] at hvisits
    exact ⟨hvalue, hevaluated, hvisits, hagain v hvalue, hquiet⟩
  · intro e s' hended
    obtain ⟨row, failure, htour, hcells, -, hfailed, hfuel, henough⟩ := tour_of_forceDeep (x := .error e) hparts hended
    obtain rfl := hfailed e rfl
    obtain ⟨path, q, hstands, hanswer, hvisits, hearlier⟩ := htour.visits_first
    obtain ⟨hquiet, -, hagain⟩ := forceDeep_of_tour hparts htour hfuel henough
    rw [hcells] at hvisits
    have hcalm' := forceDeep_calm (x := .error e) hcalm hended
    exact ⟨path, q, hstands, hcalm'.fails hanswer, hearlier, hvisits, hagain e rfl, hquiet⟩

/-- `rose` and `leaf` are in a dynamic value in a box, and `stem` is in an optional value. `stem` forces `thorn`, which
fails, and takes the error for an answer. The cell that is sealed in `leaf` is not one of its parts. -/
def thicket : Scope where
  global x := ((["root", "stem", "rose", "leaf", "thorn", "soil"].idxOf? x).map fun r => ⟨r, false⟩)
  valueType := ⟨0, "value"⟩

def thicketCells : Heap Unit Code Value :=
  #[.pending (.eval (.vector [.some (.lazy (.var "stem")),
      .box (.dynData .product (.con ⟨1, "plant"⟩ 0 [.var "rose", .var "leaf"])), .lazy (.var "thorn"),
      .lazy (.var "soil")]) []),
    .pending (.eval (.recover (.var "thorn") (.int 11)) []),
    .pending (.eval (.con ⟨2, "flower"⟩ 0 [.var "stem", .var "leaf"]) []),
    .pending (.eval (.vector [.dynSealed .value (.lazy (.var "thorn")), .int 3, .box (.lazy (.var "stem"))]) []),
    .pending (.eval (.fail (.user "thorn")) []),
    .pending (.eval .unit [])]

/-- `stem` is met four times, and `thorn` has failed for its sake before it is met; `soil` comes after `thorn` and keeps
its code. Below `rose`, there is no failure. -/
theorem forceDeep_reaches_thicket :
    (∃ (s' : Session Unit Code Value) (path : List Nat) (q : Ref),
      forceDeep (thicket.engine 90) 0 ⟨thicketCells, [], ()⟩ = .error (.failed (.user "thorn")) s' ∧
      s'.heap[5]? = some (.pending (.eval .unit [])) ∧
      s'.heap.At (.lazy 0) path q ∧ s'.heap.Fails q (.user "thorn") ∧
      s'.heap.Visits (.lazy 0) (· ≤ path) [0, 1, 2, 1, 3, 1, 3, 1, 4] ∧
      forceDeep (thicket.engine 90) 0 s' = .error (.failed (.user "thorn")) s') ∧
    ∃ (v : Value) (s' : Session Unit Code Value),
      forceDeep (thicket.engine 90) 2 ⟨thicketCells, [], ()⟩ = .ok v s' ∧ v.fields = [1, 3] ∧
      s'.heap.Visits (.lazy 2) (fun _ => True) [2, 1, 3, 1] ∧ forceDeep (thicket.engine 90) 2 s' = .ok v s' := by
  have hcalm : thicketCells.Calm := by
    intro r hr
    have := Array.mem_of_getElem? hr
    simp [thicketCells] at this
  constructor
  · have hfailed : ∃ s' : Session Unit Code Value,
        forceDeep (thicket.engine 90) 0 ⟨thicketCells, [], ()⟩ = .error (.failed (.user "thorn")) s' ∧
        s'.heap[5]? = some (.pending (.eval .unit [])) ∧
        Ask.outer (deepAsks (thicket.engine 90) 0 (⟨thicketCells, [], ()⟩ : Session Unit Code Value)) =
          [0, 1, 2, 1, 3, 1, 3, 1, 4] := ⟨_, rfl, rfl, rfl⟩
    obtain ⟨s', hfailed, hkept, hasked⟩ := hfailed
    obtain ⟨path, q, hstands, hfails, -, hvisits, hagain, -⟩ :=
      (forceDeep_reaches thicket 90 0 ⟨thicketCells, [], ()⟩ hcalm).2.2 _ _ hfailed
    rw [hasked] at hvisits
    exact ⟨s', path, q, hfailed, hkept, hstands, hfails, hvisits, hagain⟩
  · have hended : ∃ (v : Value) (s' : Session Unit Code Value),
        forceDeep (thicket.engine 90) 2 ⟨thicketCells, [], ()⟩ = .ok v s' ∧ v.fields = [1, 3] ∧
        Ask.outer (deepAsks (thicket.engine 90) 2 (⟨thicketCells, [], ()⟩ : Session Unit Code Value)) =
          [2, 1, 3, 1] := ⟨_, _, rfl, rfl, rfl⟩
    obtain ⟨v, s', hended, hfields, hasked⟩ := hended
    obtain ⟨-, -, hvisits, hagain, -⟩ :=
      (forceDeep_reaches thicket 90 2 ⟨thicketCells, [], ()⟩ hcalm).2.1 _ _ hended
    rw [hasked] at hvisits
    exact ⟨v, s', hended, hfields, hvisits, hagain⟩

end Host

end ByNeed
