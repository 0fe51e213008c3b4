/-
Demanding a cell gives what the legend says.

`Lands` is said of a state of the evaluator: it hands the outcome that a meaning says to its stack, and heap and legend
have grown by then; or the meaning has no outcome, and then nothing ever reaches the stack (`Lost`). There is one lemma
for each request of a computation, and one for each kind of code, which puts these together (`Bodies`).
- `bodies_land`: by induction on the rank, all code lands in a walk.
- `demand_lands`: so does every demand.
-/
import ByNeed.Proofs.Demo.Legend

namespace ByNeed

namespace Machine

variable {C V : Type} {E : Engine Empty C V} {m m' : Machine C V} {stack : List (Frame Empty C V)}

/-- nothing is ever handed to the stack: the evaluator runs for ever, or it drops everything above the stack -/
def Lost (E : Engine Empty C V) (m : Machine C V) (stack : List (Frame Empty C V)) : Prop :=
  (∀ n, Machine.run E n m = none) ∨ ∃ h events text, Reaches E m ⟨h, events, .unwind text, stack⟩

theorem Lost.of_reaches (hreach : Reaches E m m') (hlost : Lost E m' stack) : Lost E m stack := by
  rcases hlost with hnever | ⟨h, events, text, hreach'⟩
  · refine .inl fun n => ?_
    cases hrun : Machine.run E n m with
    | none => rfl
    | some x =>
      have := run_along hreach hrun
      rw [hnever n] at this
      cases this
  · exact .inr ⟨h, events, text, hreach.trans hreach'⟩

theorem Lost.pop {frame : Frame Empty C V} (hlost : Lost E m (frame :: stack)) : Lost E m stack := by
  rcases hlost with hnever | ⟨h, events, text, hreach⟩
  · exact .inl hnever
  · exact .inr ⟨_, events, text, hreach.tail rfl⟩

/-- The evaluator runs for ever if it comes back to a state of some kind again and again, with a step in between. -/
theorem run_none_of_loop {I : Machine C V → Prop}
    (hloop : ∀ m, I m → m.halted = false ∧ ∃ m', I m' ∧ Reaches E (m.step E) m') (hm : I m) (n : Nat) :
    Machine.run E n m = none := by
  induction n generalizing m with
  | zero => rfl
  | succ n ih =>
    obtain ⟨hhalt, m', hm', hreach⟩ := hloop m hm
    simp only [Machine.run, hhalt, Bool.false_eq_true, if_false]
    cases hrun : Machine.run E n (m.step E) with
    | none => rfl
    | some x =>
      have := run_along hreach hrun
      rw [ih hm'] at this
      cases this

end Machine

namespace Demo

open Machine Legend

/-- The state hands the outcome that `m` says to the stack and has stored it in `rs`, while legend and heap have grown.
If `m` has no outcome, nothing ever reaches the stack. -/
structure Lands (Γ : Legend) (h : Heap Unit Code Value) (rs : List Ref) (m : Meaning) (state : Machine Code Value)
    (stack : List (Frame Empty Code Value)) : Prop where
  gives : m.Defined → ∃ Γ' h' o, Reaches (engine 0) state ⟨h', state.events, .give o, stack⟩ ∧ Grows Γ h Γ' h' ∧
    Γ'.Answers o m ∧ ∀ r ∈ rs, h'.outcome? r = some o
  lost : ¬ m.Defined → Lost (engine 0) state stack

section

variable {Γ Γ' : Legend} {h h' : Heap Unit Code Value} {rs : List Ref} {m k : Meaning}
  {state state' : Machine Code Value} {stack : List (Frame Empty Code Value)} {events : List String}
  {rank : Ordinal.{0}} {r : Ref} {o : Outcome Value} {c : Code}

theorem Lands.later (hland : Lands Γ' h' rs m state' stack) (hgrows : Grows Γ h Γ' h')
    (hreach : Reaches (engine 0) state state') (hsame : state'.events = state.events) : Lands Γ h rs m state stack := by
  constructor
  · intro hm
    obtain ⟨Γ'', h'', o, hreach', hgrows', hanswers, hstored⟩ := hland.gives hm
    rw [hsame] at hreach'
    exact ⟨Γ'', h'', o, hreach.trans hreach', hgrows.trans hgrows', hanswers, hstored⟩
  · intro hm
    exact (hland.lost hm).of_reaches hreach

/-! ## Requests -/

theorem defined_of_answers (hanswers : Γ.Answers o m) : m.Defined := by
  cases hanswers with
  | atom => simp [Meaning.Defined]
  | failed hnode | nil hnode | cons hnode | pairsFailed hnode | pairsNil hnode => simp [Meaning.Defined, hnode]
  | pairsCons hfirst hsecond => simp [Meaning.Defined, Seq.zip, hfirst, hsecond]

/-- a walk that has come to its outcome -/
theorem lands_close (hfits : Γ.Fits h) (hawaits : Γ.Awaits rs m) (hanswers : Γ.Answers o m)
    (hreach : Reaches (engine 0) state ⟨h.settleAll o rs, state.events, .give o, stack⟩) :
    Lands Γ h rs m state stack := by
  have hm := defined_of_answers hanswers
  obtain ⟨hgrows, hstored⟩ := grows_settleAll hfits hawaits hanswers
  exact ⟨fun _ => ⟨Γ, _, o, hreach, hgrows, hanswers, hstored⟩, fun hn => absurd hm hn⟩

theorem lands_value (hfits : Γ.Fits h) (hawaits : Γ.Awaits rs m) {v : Value} (hanswers : Γ.Answers (.ok v) m) :
    Lands Γ h rs m ⟨h, events, .run (.done (.value v)), .walk rs :: stack⟩ stack :=
  lands_close hfits hawaits hanswers (.head rfl (.head rfl .refl))

theorem lands_fail (hfits : Γ.Fits h) (hawaits : Γ.Awaits rs m) {e : EvalError} (hanswers : Γ.Answers (.error e) m) :
    Lands Γ h rs m ⟨h, events, .run (.fail e), .walk rs :: stack⟩ stack :=
  lands_close hfits hawaits hanswers (.head rfl (.head rfl .refl))

theorem lands_abort (text : String) (hm : ¬ m.Defined) :
    Lands Γ h rs m ⟨h, events, .run (.abort text), .walk rs :: stack⟩ stack :=
  ⟨fun hd => absurd hd hm, fun _ => .inr ⟨_, events, text, .head rfl (.head rfl .refl)⟩⟩

theorem lands_ready (hfits : Γ.Fits h) {v : Value} {next : Ref → Task (Next Code Value)}
    (hanswers : (Γ.add h.size k).Answers (.ok v) k)
    (hrest : Grows Γ h (Γ.add h.size k) (h.push (.value v)) → Lands (Γ.add h.size k) (h.push (.value v)) rs m
      ⟨h.push (.value v), events, .run (next h.size), .walk rs :: stack⟩ stack) :
    Lands Γ h rs m ⟨h, events, .run (.ready v next), .walk rs :: stack⟩ stack := by
  have hgrows := grows_ready hfits hanswers
  exact (hrest hgrows).later hgrows (.head rfl .refl) rfl

theorem lands_delay (hfits : Γ.Fits h) {code : Ref → Code} {next : Ref → Task (Next Code Value)}
    (hcodes : (Γ.add h.size k).Codes (code h.size) k)
    (hrest : Grows Γ h (Γ.add h.size k) (h.push (.pending (code h.size))) →
      Lands (Γ.add h.size k) (h.push (.pending (code h.size))) rs m
        ⟨h.push (.pending (code h.size)), events, .run (next h.size), .walk rs :: stack⟩ stack) :
    Lands Γ h rs m ⟨h, events, .run (.delay code next), .walk rs :: stack⟩ stack := by
  have hgrows := grows_delay hfits hcodes
  exact (hrest hgrows).later hgrows (.head rfl .refl) rfl

/-- cells that rank lower can be demanded while the cells in progress do not -/
def Demands (rank : Ordinal.{0}) : Prop :=
  ∀ {Γ : Legend} {h : Heap Unit Code Value} {r : Ref} {k : Meaning},
    Γ.Fits h → Γ.Above h rank → Γ r = some k → k.rank < rank →
      ∀ events stack, Lands Γ h [] k ⟨h, events, .demand r, stack⟩ stack

/-- a demand inside a computation -/
theorem lands_force (hdemands : Demands rank) (hfits : Γ.Fits h) (habove : Γ.Above h rank) (hr : Γ r = some k)
    (hlow : k.rank < rank) {next : Outcome Value → Task (Next Code Value)} (hstuck : ¬ k.Defined → ¬ m.Defined)
    (hrest : ∀ {Γ' h' o}, Grows Γ h Γ' h' → Γ'.Answers o k →
      Lands Γ' h' rs m ⟨h', events, .run (next o), .walk rs :: stack⟩ stack) :
    Lands Γ h rs m ⟨h, events, .run (.force r next), .walk rs :: stack⟩ stack := by
  have hfirst := hdemands hfits habove hr hlow events (.resume next :: .walk rs :: stack)
  by_cases hk : k.Defined
  · obtain ⟨Γ', h', o, hreach, hgrows, hanswers, -⟩ := hfirst.gives hk
    exact (hrest hgrows hanswers).later hgrows (.head rfl (hreach.trans (.head rfl .refl))) rfl
  · have hlost := (hfirst.lost hk).pop.pop
    exact ⟨fun hm => absurd hm (hstuck hk), fun _ => hlost.of_reaches (.head rfl .refl)⟩

/-- code of this rank lands in a walk -/
def Bodies (rank : Ordinal.{0}) : Prop :=
  ∀ {Γ : Legend} {h : Heap Unit Code Value} {m : Meaning} {c : Code},
    Γ.Fits h → Γ.Codes c m → m.rank = rank → Γ.Above h rank → ∀ {rs}, Γ.Awaits rs m → ∀ events stack,
      Lands Γ h rs m ⟨h, events, .run c.body, .walk rs :: stack⟩ stack

/-- A cell that ranks low enough is not in progress: its code is handed out, or it answers what it means. -/
theorem claim_low (hfits : Γ.Fits h) (habove : Γ.Above h rank) (hr : Γ r = some k) (hlow : k.rank < rank) :
    (∃ c, h[r]? = some (.pending c) ∧ h.claim r = (.granted c, h.setIfInBounds r (.busy ()))) ∨
      ∃ o, h.claim r = (.outcome o, h) ∧ Γ.Answers o k := by
  rcases h.claim_cases r with hgranted | ⟨o, heq, hstored | ⟨-, hbusy | houtside⟩⟩
  · exact .inl hgranted
  · exact .inr ⟨o, heq, hfits.stored hr hstored⟩
  · exact absurd (habove r k hr hbusy) (not_le.2 hlow)
  · rw [Array.getElem?_eq_getElem (hfits.inside hr)] at houtside
    cases houtside

theorem fits_claimed (hfits : Γ.Fits h) (hc : h[r]? = some (.pending c)) : Γ.Fits (h.setIfInBounds r (.busy ())) := by
  refine ⟨?_, ?_, ?_⟩
  · intro q m hq
    rw [Array.size_setIfInBounds]
    exact hfits.inside hq
  · intro q m c' hq hc'
    rw [Heap.getElem?_claimed hc] at hc'
    split at hc'
    · cases hc'
    · exact hfits.code hq hc'
  · intro q m o hq ho
    rw [Heap.outcome?, Heap.getElem?_claimed hc] at ho
    split at ho
    · cases ho
    · exact hfits.stored hq ho

theorem above_claimed (habove : Γ.Above h rank) (hr : Γ r = some k) (hlow : k.rank ≤ rank)
    (hc : h[r]? = some (.pending c)) : Γ.Above (h.setIfInBounds r (.busy ())) k.rank := by
  intro q m hq hb
  rw [Heap.getElem?_claimed hc] at hb
  split at hb
  · subst q
    rw [hr] at hq
    cases hq
    exact le_rfl
  · exact hlow.trans (habove q m hq hb)

/-- the code of a claimed cell, run for it and for the cells claimed before it -/
theorem lands_claimed (hbodies : ∀ low < rank, Bodies low) (hfits : Γ.Fits h) (habove : Γ.Above h rank)
    (hr : Γ r = some k)
    (hlow : k.rank < rank) (hc : h[r]? = some (.pending c)) (hawaits : Γ.Awaits rs k) (events : List String)
    (stack : List (Frame Empty Code Value)) :
    Lands Γ h rs k ⟨h.setIfInBounds r (.busy ()), events, .run c.body, .walk (r :: rs) :: stack⟩ stack := by
  have hawaits' : Γ.Awaits (r :: rs) k := by
    intro q hq
    rcases List.mem_cons.1 hq with rfl | hq
    · exact ⟨k, hr, fun _ _ _ hanswers => hanswers⟩
    · exact hawaits q hq
  have habove' := above_claimed habove hr hlow.le hc
  have hland := hbodies k.rank hlow (fits_claimed hfits hc) (hfits.code hr hc) rfl habove' hawaits' events stack
  refine ⟨fun hk => ?_, hland.lost⟩
  obtain ⟨Γ', h', o, hreach, hgrows, hanswers, hstored⟩ := hland.gives hk
  have hdone := hstored r List.mem_cons_self
  refine ⟨Γ', h', o, hreach, ⟨hgrows.within, hgrows.fits, ?_⟩, hanswers,
    fun q hq => hstored q (List.mem_cons_of_mem r hq)⟩
  -- the cell itself has its outcome by now
  intro q m hq hb
  obtain ⟨hq', hb'⟩ := hgrows.calm hq hb
  rw [Heap.getElem?_claimed hc] at hb'
  split at hb'
  · subst q
    rw [Heap.outcome?, hb] at hdone
    cases hdone
  · exact ⟨hq', hb'⟩

theorem demands_of_bodies (hbodies : ∀ low < rank, Bodies low) : Demands rank := by
  intro Γ h r k hfits habove hr hlow events stack
  rcases claim_low hfits habove hr hlow with ⟨c, hc, heq⟩ | ⟨o, heq, hanswers⟩
  · have hland := lands_claimed hbodies hfits habove hr hlow hc (List.forall_mem_nil _) events stack
    exact hland.later (.refl hfits) (.single (by simp only [step, heq]; rfl)) rfl
  · have hk := defined_of_answers hanswers
    refine ⟨fun _ => ⟨Γ, h, o, .single ?_, .refl hfits, hanswers, List.forall_mem_nil _⟩, fun hn => absurd hk hn⟩
    simp only [step, heq]

theorem Lands.convert (hland : Lands Γ h rs k state stack) (hsame : k.Defined ↔ m.Defined)
    (hconvert : ∀ Γ' o, Γ.Within Γ' → Γ'.Answers o k → Γ'.Answers o m) : Lands Γ h rs m state stack := by
  refine ⟨fun hm => ?_, fun hm => hland.lost fun hk => hm (hsame.1 hk)⟩
  obtain ⟨Γ', h', o, hreach, hgrows, hanswers, hstored⟩ := hland.gives (hsame.2 hm)
  exact ⟨Γ', h', o, hreach, hgrows, hconvert Γ' o hgrows.within hanswers, hstored⟩

/-- a walk goes on with a cell that means the same -/
theorem lands_cell (hbodies : ∀ low < rank, Bodies low) (hfits : Γ.Fits h) (habove : Γ.Above h rank)
    (hawaits : Γ.Awaits rs m) (hr : Γ r = some k) (hlow : k.rank < rank) (hsame : k.Defined ↔ m.Defined)
    (hconvert : ∀ Γ' o, Γ.Within Γ' → Γ'.Answers o k → Γ'.Answers o m) :
    Lands Γ h rs m ⟨h, events, .run (.done (.cell r)), .walk rs :: stack⟩ stack := by
  rcases claim_low hfits habove hr hlow with ⟨c, hc, heq⟩ | ⟨o, heq, hanswers⟩
  · have hawaits' : Γ.Awaits rs k := by
      intro q hq
      obtain ⟨mq, hmq, hconvert'⟩ := hawaits q hq
      exact ⟨mq, hmq, fun Γ' o hw hanswers => hconvert' Γ' o hw (hconvert Γ' o hw hanswers)⟩
    have hland := lands_claimed hbodies hfits habove hr hlow hc hawaits' events stack
    refine (hland.convert hsame hconvert).later (.refl hfits) (.head rfl (.single ?_)) rfl
    simp only [step, request, conclude, heq]
    rfl
  · refine lands_close hfits hawaits (hconvert Γ o (fun _ _ hq => hq) hanswers) (.head rfl (.single ?_))
    simp only [step, request, conclude, heq]

end

/-! ## Codes -/

section

variable {Γ : Legend} {h : Heap Unit Code Value} {rs : List Ref} {stack : List (Frame Empty Code Value)}
  {events : List String} {s t : Seq} {low ranks : Nat → Ordinal.{0}}

theorem tail_lands (hbodies : ∀ low < ranks 0, Bodies low) (hfits : Γ.Fits h) (habove : Γ.Above h (ranks 0)) {xs : Ref}
    (hawaits : Γ.Awaits rs (.list s.tail ranks)) (hlist : Γ.IsList xs s low) (hfirst : low 0 < ranks 0)
    (hbelow : ∀ i, low (i + 1) < ranks i) :
    Lands Γ h rs (.list s.tail ranks) ⟨h, events, .run (Task.tail xs), .walk rs :: stack⟩ stack := by
  obtain ⟨low', hle, hxs⟩ := hlist
  refine lands_force (demands_of_bodies hbodies) hfits habove hxs ((hle 0).trans_lt hfirst) ?_ ?_
  · simp only [Meaning.Defined, not_not]
    intro hs
    simp [Seq.tail, hs]
  · intro Γ' h' o hgrows hanswers
    have hawaits' := hawaits.within hgrows.within
    cases hanswers with
    | failed hnode => exact lands_fail hgrows.fits hawaits' (.failed (by simp [Seq.tail, hnode]) _)
    | nil hnode => exact lands_fail hgrows.fits hawaits' (.failed (by simp [Seq.tail, hnode]) _)
    | cons hnode hhead htail =>
      obtain ⟨low'', hle', htail'⟩ := htail
      have hs : s.tail = s.drop 1 := by simp only [Seq.tail, hnode]
      have hranks : ∀ i, low'' i < ranks i := fun i => ((hle' i).trans (hle (i + 1))).trans_lt (hbelow i)
      refine lands_cell hbodies hgrows.fits (hgrows.above habove) hawaits' htail' (hranks 0) ?_ ?_
      · rw [hs]; rfl
      · intro Γ'' o _ hanswers
        rw [hs]
        exact hanswers.le fun i => (hranks i).le

/-- Side by side, two lists are demanded in turn. Their failures and ends are those of the sums of their elements. -/
theorem lands_beside {rank : Ordinal.{0}} (hdemands : Demands rank) (hfits : Γ.Fits h) (habove : Γ.Above h rank)
    {f : Fn Prim} {xs ys : Ref} {left right : Nat → Ordinal.{0}} {m : Meaning} (hawaits : Γ.Awaits rs m)
    (hfirst : Γ.IsList xs s left) (hsecond : Γ.IsList ys t right) (hbelow : left 0 < rank) (hbeside : right 0 < rank)
    (hstuck : Seq.zip s t 0 = .stuck → ¬ m.Defined)
    (hfailed : ∀ {Γ' : Legend} {e : EvalError}, Seq.zip s t 0 = .failed e → Γ'.Answers (.error e) m)
    (hends : ∀ {Γ' : Legend}, Seq.zip s t 0 = .stop → Γ'.Answers (.ok .nil) m)
    (hrest : ∀ {Γ' h' a b x y xs' ys'}, Grows Γ h Γ' h' → s 0 = .item a → t 0 = .item b → Γ'.IsElem x a (left 0) →
      Γ'.IsElem y b (right 0) → (Γ'.IsList xs' (s.drop 1) fun i => left (i + 1)) →
      (Γ'.IsList ys' (t.drop 1) fun i => right (i + 1)) →
        Lands Γ' h' rs m ⟨h', events, .run (do
          let head ← .newDelay (.enter f.code (f.applyAll [x, y]))
          let tail ← .newDelay (.zipWith f xs' ys')
          return .value (.cons head tail)), .walk rs :: stack⟩ stack) :
    Lands Γ h rs m ⟨h, events, .run (Task.zipWith f xs ys), .walk rs :: stack⟩ stack := by
  obtain ⟨left', hleft, hxs⟩ := hfirst
  refine lands_force hdemands hfits habove hxs ((hleft 0).trans_lt hbelow) ?_ ?_
  · simp only [Meaning.Defined, not_not]
    intro hs
    exact hstuck (by simp [Seq.zip, hs])
  intro Γ₁ h₁ o hgrows₁ hanswers₁
  obtain ⟨right', hright, hys⟩ := hsecond.within hgrows₁.within
  have hawaits₁ := hawaits.within hgrows₁.within
  have hstuck' : (∃ a, s 0 = .item a) ∨ s 0 = .stop → ¬ (Meaning.list t right').Defined → ¬ m.Defined := by
    simp only [Meaning.Defined, not_not]
    rintro (⟨a, hs⟩ | hs) ht <;> exact hstuck (by simp [Seq.zip, hs, ht])
  have hlow := (hright 0).trans_lt hbeside
  cases hanswers₁ with
  | failed hnode => exact lands_fail hgrows₁.fits hawaits₁ (hfailed (by simp [Seq.zip, hnode]))
  | nil hnode =>
    -- the second list is demanded even if the first has ended: its failure then comes before the end
    refine lands_force hdemands hgrows₁.fits (hgrows₁.above habove) hys hlow (hstuck' (.inr hnode)) ?_
    intro Γ₂ h₂ o hgrows₂ hanswers₂
    have hawaits₂ := hawaits₁.within hgrows₂.within
    cases hanswers₂ with
    | failed hnode' => exact lands_fail hgrows₂.fits hawaits₂ (hfailed (by simp [Seq.zip, hnode, hnode']))
    | nil hnode' => exact lands_value hgrows₂.fits hawaits₂ (hends (by simp [Seq.zip, hnode, hnode']))
    | cons hnode' => exact lands_value hgrows₂.fits hawaits₂ (hends (by simp [Seq.zip, hnode, hnode']))
  | @cons _ a _ x xs' hnode hhead htail =>
    refine lands_force hdemands hgrows₁.fits (hgrows₁.above habove) hys hlow (hstuck' (.inl ⟨a, hnode⟩)) ?_
    intro Γ₂ h₂ o hgrows₂ hanswers₂
    have hawaits₂ := hawaits₁.within hgrows₂.within
    cases hanswers₂ with
    | failed hnode' => exact lands_fail hgrows₂.fits hawaits₂ (hfailed (by simp [Seq.zip, hnode, hnode']))
    | nil hnode' => exact lands_value hgrows₂.fits hawaits₂ (hends (by simp [Seq.zip, hnode, hnode']))
    | cons hnode' hhead' htail' =>
      have hx := (hhead.within hgrows₂.within).le (hleft 0)
      have hxs' := (htail.within hgrows₂.within).le fun i => hleft (i + 1)
      exact (hrest (hgrows₁.trans hgrows₂) hnode hnode' hx (hhead'.le (hright 0)) hxs'
        (htail'.le fun i => hright (i + 1))).later
        (.refl hgrows₂.fits) .refl rfl

theorem zip_lands (hdemands : Demands (ranks 0)) (hfits : Γ.Fits h) (habove : Γ.Above h (ranks 0)) {xs ys : Ref}
    {left right : Nat → Ordinal.{0}} (hawaits : Γ.Awaits rs (.list (.zip s t) ranks)) (hfirst : Γ.IsList xs s left)
    (hsecond : Γ.IsList ys t right) (hbelow : ∀ i, left i < ranks i) (hbeside : ∀ i, right i < ranks i) :
    Lands Γ h rs (.list (.zip s t) ranks)
      ⟨h, events, .run (Task.zipWith Task.plus xs ys), .walk rs :: stack⟩ stack := by
  refine lands_beside hdemands hfits habove hawaits hfirst hsecond (hbelow 0) (hbeside 0) (fun hnode => ?_)
    (fun hnode => .failed hnode _) (fun hnode => .nil hnode _) ?_
  · simp [Meaning.Defined, hnode]
  intro Γ' h' a b x y xs' ys' hgrows hnode hnode' hx hy hxs' hys'
  have hw₁ := within_add hgrows.fits (.atom (some (.int <$> plusOf a b)) (ranks 0))
  refine lands_delay hgrows.fits (.plus (hx.within hw₁) (hy.within hw₁) (hbelow 0) (hbeside 0)) fun hgrows₁ => ?_
  have hw₂ := within_add hgrows₁.fits (.list (.zip (s.drop 1) (t.drop 1)) fun i => ranks (i + 1))
  have hw := hw₁.trans hw₂
  refine lands_delay hgrows₁.fits
    (.zip (hxs'.within hw) (hys'.within hw) (fun i => hbelow (i + 1)) fun i => hbeside (i + 1)) fun hgrows₂ => ?_
  have hboth : Seq.zip s t 0 = .item (plusOf a b) := by simp [Seq.zip, hnode, hnode']
  refine lands_value hgrows₂.fits (hawaits.within (hgrows.within.trans hw)) (.cons hboth ?_ ?_)
  · exact (isElem_add _ _ _ _).within hw₂
  · exact isList_add _ _ _ _

theorem pairs_lands (hdemands : Demands (ranks 0)) (hfits : Γ.Fits h) (habove : Γ.Above h (ranks 0)) {xs ys : Ref}
    {left right : Nat → Ordinal.{0}} (hawaits : Γ.Awaits rs (.pairs s t ranks)) (hfirst : Γ.IsList xs s left)
    (hsecond : Γ.IsList ys t right) (hbelow : ∀ i, left i < ranks i) (hbeside : ∀ i, right i < ranks i) :
    Lands Γ h rs (.pairs s t ranks)
      ⟨h, events, .run (Task.zipWith Task.number xs ys), .walk rs :: stack⟩ stack := by
  refine lands_beside hdemands hfits habove hawaits hfirst hsecond (hbelow 0) (hbeside 0) (fun hnode => ?_)
    (fun hnode => .pairsFailed hnode _) (fun hnode => .pairsNil hnode _) ?_
  · simp [Meaning.Defined, hnode]
  intro Γ' h' a b x y xs' ys' hgrows hnode hnode' hx hy hxs' hys'
  have hw₁ := within_add hgrows.fits (.atom (some (.ok (.numbered x y))) (ranks 0))
  refine lands_delay hgrows.fits (.number x y (ranks 0)) fun hgrows₁ => ?_
  have hw₂ := within_add hgrows₁.fits (.pairs (s.drop 1) (t.drop 1) fun i => ranks (i + 1))
  have hw := hw₁.trans hw₂
  refine lands_delay hgrows₁.fits
    (.pairs (hxs'.within hw) (hys'.within hw) (fun i => hbelow (i + 1)) fun i => hbeside (i + 1)) fun hgrows₂ => ?_
  refine lands_value hgrows₂.fits (hawaits.within (hgrows.within.trans hw))
    (.pairsCons (x := x) (y := y) hnode hnode' ⟨?_, ?_, ?_⟩ ?_)
  · exact hw₂ _ _ (add_self _ _ _)
  · exact (hx.within hw).le (hbelow 0).le
  · exact (hy.within hw).le (hbeside 0).le
  · exact add_self _ _ _

/-- a filter makes a cell for its predicate, which ranks between the filter and what the predicate demands -/
theorem predicate_codes (hfits : Γ.Fits h) {x p : Ref} {a o : Outcome Int64} {left divisor rank : Ordinal.{0}}
    (helem : Γ.IsElem x a left) (helem' : Γ.IsElem p o divisor) (hbelow : Order.succ left < rank)
    (habove : Order.succ divisor < rank) :
    ∃ middle < rank, (Γ.add h.size (.atom ((verdict o a).map (Value.bool <$> ·)) middle)).Codes
      (.enter .indivisible [x, p]) (.atom ((verdict o a).map (Value.bool <$> ·)) middle) := by
  refine ⟨Order.succ (max left divisor), ?_, ?_⟩
  · rcases max_choice left divisor with hmax | hmax <;> rwa [hmax]
  · have hw := within_add hfits (.atom ((verdict o a).map (Value.bool <$> ·)) (Order.succ (max left divisor)))
    exact .indivisible (helem.within hw) (helem'.within hw) (Order.lt_succ_iff.2 (le_max_left _ _))
      (Order.lt_succ_iff.2 (le_max_right _ _))

/-- A filter passes over a dropped element and goes on with the rest of the list. -/
theorem filter_passes (hdemands : Demands (ranks 0)) (hfits : Γ.Fits h) (habove : Γ.Above h (ranks 0)) {xs p : Ref}
    {o : Outcome Int64} {divisor : Ordinal.{0}} (helem : Γ.IsElem p o divisor) (hlist : Γ.IsList xs s low)
    (hhigh : Order.succ divisor < ranks 0) (hbelow : Order.succ (low 0) < ranks 0) (hdropped : Seq.Dropped o (s 0)) :
    ∃ Γ' h' xs', Grows Γ h Γ' h' ∧ Γ'.IsList xs' (s.drop 1) (fun i => low (i + 1)) ∧
      Reaches (engine 0) (step (engine 0) ⟨h, events, .run (Task.filter (Task.indivisibleBy p) xs), .walk rs :: stack⟩)
        ⟨h', events, .run (Task.filter (Task.indivisibleBy p) xs'), .walk rs :: stack⟩ := by
  obtain ⟨low', hle, hxs⟩ := hlist
  obtain ⟨a, hnode, hverdict⟩ : ∃ a, s 0 = .item a ∧ verdict o a = some (.ok false) := by
    cases hs : s 0 with
    | item a => rw [hs] at hdropped; exact ⟨a, rfl, hdropped⟩
    | stop | failed e | stuck => rw [hs] at hdropped; exact absurd hdropped id
  have hlow : low' 0 < ranks 0 := ((hle 0).trans (Order.le_succ _)).trans_lt hbelow
  obtain ⟨Γ₁, h₁, v, hreach₁, hgrows₁, hanswers₁, -⟩ :=
    (hdemands hfits habove hxs hlow events (.resume _ :: .walk rs :: stack)).gives (by simp [Meaning.Defined, hnode])
  cases hanswers₁ with
  | failed hnode' | nil hnode' => rw [hnode] at hnode'; cases hnode'
  | @cons _ a' _ x xs' hnode' hhead htail =>
    rw [hnode] at hnode'
    cases hnode'
    have hx := hhead.le (hle 0)
    obtain ⟨middle, hmiddle, hcodes⟩ := predicate_codes hgrows₁.fits hx (helem.within hgrows₁.within) hbelow hhigh
    have hgrows₂ := grows_delay hgrows₁.fits hcodes
    have habove₂ := (hgrows₁.trans hgrows₂).above habove
    obtain ⟨Γ₃, h₃, b, hreach₃, hgrows₃, hanswers₃, -⟩ :=
      (hdemands hgrows₂.fits habove₂ (add_self _ _ _) hmiddle events (.resume _ :: .walk rs :: stack)).gives
        (by simp [Meaning.Defined, hverdict])
    rw [hverdict] at hanswers₃
    cases hanswers₃
    refine ⟨Γ₃, h₃, xs', (hgrows₁.trans hgrows₂).trans hgrows₃, ?_, ?_⟩
    · exact ((htail.within hgrows₂.within).within hgrows₃.within).le fun i => hle (i + 1)
    · refine hreach₁.trans (.head rfl (.head rfl (.head rfl (hreach₃.trans (.head rfl (.head rfl .refl))))))

/-- A filter ends at an element that is not dropped, or at the end of the list. -/
theorem filter_stops (hdemands : Demands (ranks 0)) (hfits : Γ.Fits h) (habove : Γ.Above h (ranks 0)) {xs p : Ref}
    {o : Outcome Int64} {divisor : Ordinal.{0}} (hawaits : Γ.Awaits rs (.list (s.filter o) ranks))
    (helem : Γ.IsElem p o divisor) (hlist : Γ.IsList xs s low) (hhigh : ∀ j, Order.succ divisor < ranks j)
    (hbelow : ∀ i j, Order.succ (low i) < ranks j) (hstays : ¬ Seq.Dropped o (s 0)) :
    Lands Γ h rs (.list (s.filter o) ranks)
      ⟨h, events, .run (Task.filter (Task.indivisibleBy p) xs), .walk rs :: stack⟩ stack := by
  have hfront := Seq.filter_kept hstays
  obtain ⟨low', hle, hxs⟩ := hlist
  have hlow : low' 0 < ranks 0 := ((hle 0).trans (Order.le_succ _)).trans_lt (hbelow 0 0)
  refine lands_force hdemands hfits habove hxs hlow ?_ ?_
  · simp only [Meaning.Defined, not_not]
    intro hs
    simp [hfront, hs, Seq.kept]
  intro Γ₁ h₁ v hgrows₁ hanswers₁
  have hawaits₁ := hawaits.within hgrows₁.within
  cases hanswers₁ with
  | failed hnode => exact lands_fail hgrows₁.fits hawaits₁ (.failed (by simp [hfront, hnode, Seq.kept]) _)
  | nil hnode => exact lands_value hgrows₁.fits hawaits₁ (.nil (by simp [hfront, hnode, Seq.kept]) _)
  | @cons _ a _ x xs' hnode hhead htail =>
    have hx := hhead.le (hle 0)
    have hp := helem.within hgrows₁.within
    -- the predicate gets a cell of its own, of a rank between those of the element and of the filter
    obtain ⟨middle, hmiddle, hcodes⟩ := predicate_codes hgrows₁.fits hx hp (hbelow 0 0) (hhigh 0)
    rw [hnode, Seq.kept] at hfront
    rw [hnode] at hstays
    refine lands_delay hgrows₁.fits hcodes fun hgrows₂ => ?_
    have habove₂ := (hgrows₁.trans hgrows₂).above habove
    refine lands_force hdemands hgrows₂.fits habove₂ (add_self _ _ _) hmiddle ?_ ?_
    · simp only [Meaning.Defined, not_not, Option.map_eq_none_iff]
      intro hv
      rw [hfront, hv]
    intro Γ₃ h₃ b hgrows₃ hanswers₃
    have hgrows := hgrows₂.trans hgrows₃
    have hawaits₃ := hawaits₁.within hgrows.within
    cases hv : verdict o a with
    | none => rw [hv] at hanswers₃; cases hanswers₃
    | some result =>
      rw [hv] at hanswers₃ hfront
      cases hanswers₃
      cases result with
      | error e => exact lands_fail hgrows₃.fits hawaits₃ (.failed hfront _)
      | ok keep =>
        cases keep with
        | false => exact absurd hv hstays
        | true =>
          have hrest : Γ₁.IsList xs' (s.drop 1) fun i => low (i + 1) := htail.le fun i => hle (i + 1)
          have hw := within_add hgrows₃.fits (.list ((s.drop 1).filter o) fun i => ranks (i + 1))
          have hw' := hgrows.within.trans hw
          refine lands_delay hgrows₃.fits
            (.filter (hp.within hw') (hrest.within hw') (fun j => hhigh (j + 1)) fun i j => hbelow (i + 1) (j + 1))
            fun hgrows₄ => ?_
          refine lands_value hgrows₄.fits (hawaits₃.within hw) (.cons hfront ?_ ?_)
          · exact (hx.within hw').le ((Order.le_succ _).trans (hbelow 0 0).le)
          · rw [Seq.filter_drop (by rw [hnode]; exact hstays)]
            exact isList_add _ _ _ _

/-- A filter searches for ever, or it comes to the first position that is not dropped. -/
theorem filter_lands (hdemands : Demands (ranks 0)) (hfits : Γ.Fits h) (habove : Γ.Above h (ranks 0)) {xs p : Ref}
    {o : Outcome Int64} {divisor : Ordinal.{0}} (hawaits : Γ.Awaits rs (.list (s.filter o) ranks))
    (helem : Γ.IsElem p o divisor) (hlist : Γ.IsList xs s low) (hhigh : ∀ j, Order.succ divisor < ranks j)
    (hbelow : ∀ i j, Order.succ (low i) < ranks j) :
    Lands Γ h rs (.list (s.filter o) ranks)
      ⟨h, events, .run (Task.filter (Task.indivisibleBy p) xs), .walk rs :: stack⟩ stack := by
  cases hsearch : Seq.search o s with
  | some k =>
    induction k generalizing Γ h xs s low with
    | zero =>
      refine filter_stops hdemands hfits habove hawaits helem hlist hhigh hbelow fun hdropped => ?_
      rw [Seq.search_succ hdropped] at hsearch
      simp at hsearch
    | succ k ih =>
      by_cases hdropped : Seq.Dropped o (s 0)
      · have hrest : Seq.search o (s.drop 1) = some k := by
          rw [Seq.search_succ hdropped] at hsearch
          simpa using hsearch
        obtain ⟨Γ', h', xs', hgrows, hlist', hreach⟩ :=
          filter_passes hdemands hfits habove helem hlist (hhigh 0) (hbelow 0 0) hdropped
        rw [Seq.filter_dropped hdropped] at hawaits ⊢
        have hland := ih hgrows.fits (hgrows.above habove) (hawaits.within hgrows.within)
          (helem.within hgrows.within) hlist'
          (fun i j => hbelow (i + 1) j) hrest
        exact hland.later hgrows (.head rfl hreach) rfl
      · rw [Seq.search_zero hdropped] at hsearch
        cases hsearch
  | none =>
    have hnever : ¬ (Meaning.list (s.filter o) ranks).Defined := by simp [Meaning.Defined, Seq.filter, hsearch]
    refine ⟨fun hm => absurd hm hnever, fun _ => .inl fun n => ?_⟩
    -- the filter comes back to its own code, with the rest of the list
    refine run_none_of_loop (I := fun state => ∃ Γ h xs s low, Γ.Fits h ∧ Γ.Above h (ranks 0) ∧ Γ.IsElem p o divisor ∧
      Γ.IsList xs s low ∧ (∀ i j, Order.succ (low i) < ranks j) ∧ Seq.search o s = none ∧
      state = ⟨h, events, .run (Task.filter (Task.indivisibleBy p) xs), .walk rs :: stack⟩) ?_
      ⟨Γ, h, xs, s, low, hfits, habove, helem, hlist, hbelow, hsearch, rfl⟩ n
    rintro _ ⟨Γ, h, xs, s, low, hfits, habove, helem, hlist, hbelow, hsearch, rfl⟩
    obtain ⟨Γ', h', xs', hgrows, hlist', hreach⟩ :=
      filter_passes hdemands hfits habove helem hlist (hhigh 0) (hbelow 0 0) (Seq.dropped_of_search hsearch 0)
    exact ⟨rfl, _, ⟨Γ', h', xs', s.drop 1, _, hgrows.fits, hgrows.above habove, helem.within hgrows.within, hlist',
      fun i j => hbelow (i + 1) j, Seq.search_drop hsearch, rfl⟩, hreach⟩

theorem sieve_lands (hdemands : Demands (ranks 0)) (hfits : Γ.Fits h) (habove : Γ.Above h (ranks 0)) {xs : Ref}
    {bound : Ordinal.{0}} (hawaits : Γ.Awaits rs (.list s.sieve ranks)) (hlist : Γ.IsList xs s low)
    (hbelow : ∀ i, low i ≤ bound) (hhigh : ∀ j, bound < ranks j)
    (hlimit : ∀ j a, a < ranks j → Order.succ a < ranks j) :
    Lands Γ h rs (.list s.sieve ranks) ⟨h, events, .run (Task.sieve xs), .walk rs :: stack⟩ stack := by
  have hfront : s.sieve 0 = s 0 := rfl
  obtain ⟨low', hle, hxs⟩ := hlist
  refine lands_force hdemands hfits habove hxs (((hle 0).trans (hbelow 0)).trans_lt (hhigh 0)) id ?_
  intro Γ₁ h₁ v hgrows₁ hanswers₁
  have hawaits₁ := hawaits.within hgrows₁.within
  cases hanswers₁ with
  | failed hnode => exact lands_fail hgrows₁.fits hawaits₁ (.failed (hfront.trans hnode) _)
  | nil hnode => exact lands_value hgrows₁.fits hawaits₁ (.nil (hfront.trans hnode) _)
  | @cons _ a _ x xs' hnode hhead htail =>
    have hx : Γ₁.IsElem x a bound := hhead.le ((hle 0).trans (hbelow 0))
    have hrest : Γ₁.IsList xs' (s.drop 1) fun _ => bound := htail.le fun i => (hle (i + 1)).trans (hbelow (i + 1))
    have htwo : Order.succ bound < Order.succ (Order.succ bound) := Order.lt_succ _
    have hw₂ := within_add hgrows₁.fits (.list ((s.drop 1).filter a) fun _ => Order.succ (Order.succ bound))
    refine lands_delay hgrows₁.fits
      (.filter (hx.within hw₂) (hrest.within hw₂) (fun _ => htwo) fun _ _ => htwo) fun hgrows₂ => ?_
    have hkept := Γ₁.isList_add h₁.size ((s.drop 1).filter a) fun _ => Order.succ (Order.succ bound)
    have hw₃ := within_add hgrows₂.fits (.list ((s.drop 1).filter a).sieve fun i => ranks (i + 1))
    refine lands_delay hgrows₂.fits (.sieve (hkept.within hw₃) (fun _ => le_rfl)
      (fun j => hlimit (j + 1) _ (hlimit (j + 1) _ (hhigh (j + 1)))) fun j => hlimit (j + 1)) fun hgrows₃ => ?_
    refine lands_value hgrows₃.fits (hawaits₁.within (hw₂.trans hw₃)) (.cons (hfront.trans hnode) ?_ ?_)
    · exact (hx.within (hw₂.trans hw₃)).le (hhigh 0).le
    · rw [Seq.sieve_drop hnode]
      exact isList_add _ _ _ _

theorem fibs_lands (hfits : Γ.Fits h) {self : Ref} (hawaits : Γ.Awaits rs (.list .fibs ranks))
    (hlist : Γ.IsList self .fibs ranks) (hgaps : ∀ i, Order.succ (ranks i) < ranks (i + 1)) :
    Lands Γ h rs (.list .fibs ranks) ⟨h, events, .run (Task.fibs self), .walk rs :: stack⟩ stack := by
  have hmono : ∀ i, ranks i < ranks (i + 1) := fun i => (Order.le_succ _).trans_lt (hgaps i)
  have hsums : (Seq.fibs.drop 1).drop 1 = .zip .fibs Seq.fibs.tail := rfl
  have hw₁ := within_add hfits (.list Seq.fibs.tail fun i => Order.succ (ranks (i + 1)))
  refine lands_delay hfits
    (.tail (hlist.within hw₁) ((hmono 0).trans (Order.lt_succ _)) fun i => Order.lt_succ _) fun hgrows₁ => ?_
  have hself := hlist.within hw₁
  have htail := Γ.isList_add h.size Seq.fibs.tail fun i => Order.succ (ranks (i + 1))
  have hw₂ := within_add hgrows₁.fits (.list (.zip .fibs Seq.fibs.tail) fun i => ranks (i + 2))
  refine lands_delay hgrows₁.fits (.zip (hself.within hw₂) (htail.within hw₂) (fun i => (hmono i).trans (hmono (i + 1)))
    fun i => hgaps (i + 1)) fun hgrows₂ => ?_
  have hw₃ := within_add hgrows₂.fits (.atom (some (.ok (.int 1))) (ranks 1))
  refine lands_ready (k := .atom (some (.ok (.int 1))) (ranks 1)) hgrows₂.fits (.atom _ _) fun hgrows₃ => ?_
  have hw₄ := within_add hgrows₃.fits (.list (Seq.fibs.drop 1) fun i => ranks (i + 1))
  refine lands_ready (k := .list (Seq.fibs.drop 1) fun i => ranks (i + 1)) hgrows₃.fits (.cons rfl ?_ ?_)
    fun hgrows₄ => ?_
  · exact (isElem_add _ _ _ _).within hw₄
  · rw [hsums]
    exact (isList_add _ _ _ _).within (hw₃.trans hw₄)
  have hw₅ := within_add hgrows₄.fits (.atom (some (.ok (.int 0))) (ranks 0))
  refine lands_ready (k := .atom (some (.ok (.int 0))) (ranks 0)) hgrows₄.fits (.atom _ _) fun hgrows₅ => ?_
  have hw := hw₁.trans (hw₂.trans (hw₃.trans (hw₄.trans hw₅)))
  refine lands_value hgrows₅.fits (hawaits.within hw) (.cons rfl ?_ ?_)
  · exact isElem_add _ _ (.ok 0) _
  · exact (isList_add _ _ _ _).within hw₅

theorem ones_lands (hfits : Γ.Fits h) {self : Ref} (hawaits : Γ.Awaits rs (.list .ones ranks))
    (hlist : Γ.IsList self .ones ranks) (hmono : ∀ i, ranks i ≤ ranks (i + 1)) :
    Lands Γ h rs (.list .ones ranks) ⟨h, events, .run (Task.ones self), .walk rs :: stack⟩ stack := by
  have hw := within_add hfits (.atom (some (.ok (.int 1))) (ranks 0))
  refine lands_ready (k := .atom (some (.ok (.int 1))) (ranks 0)) hfits (.atom _ _) fun hgrows => ?_
  refine lands_value hgrows.fits (hawaits.within hw) (.cons rfl (isElem_add _ _ (.ok 1) _) ?_)
  exact (hlist.within hw).le hmono

theorem upFrom_lands (hfits : Γ.Fits h) {n : Int64} (hawaits : Γ.Awaits rs (.list (.upFrom n.toInt) ranks)) :
    Lands Γ h rs (.list (.upFrom n.toInt) ranks) ⟨h, events, .run (Task.upFrom n), .walk rs :: stack⟩ stack := by
  cases hfit : Checked.fit? (n.toInt + 1) with
  | none =>
    have hbeyond : ¬ n.toInt < Int64.maxValue.toInt := by
      have := Checked.fit?_eq_none_iff.1 hfit
      have := n.minValue_le_toInt
      omega
    simp only [Task.upFrom, hfit]
    exact lands_abort _ (by simp [Meaning.Defined, Seq.upFrom, hbeyond])
  | some next =>
    have hnext := Checked.fit?_eq_some_iff.1 hfit
    have hbelow : n.toInt < Int64.maxValue.toInt := by
      have := next.toInt_le
      omega
    simp only [Task.upFrom, hfit]
    have hw₁ := within_add hfits (.atom (some (.ok (.int n))) (ranks 0))
    refine lands_ready (k := .atom (some (.ok (.int n))) (ranks 0)) hfits (.atom _ _) fun hgrows₁ => ?_
    have hw₂ := within_add hgrows₁.fits (.list (.upFrom next.toInt) fun i => ranks (i + 1))
    refine lands_delay hgrows₁.fits (.upFrom next fun i => ranks (i + 1)) fun hgrows₂ => ?_
    have hfront : Seq.upFrom n.toInt 0 = .item (.ok n) := by simp [Seq.upFrom, hbelow]
    refine lands_value hgrows₂.fits (hawaits.within (hw₁.trans hw₂)) (.cons hfront ?_ ?_)
    · exact (isElem_add _ _ _ _).within hw₂
    · rw [Seq.upFrom_drop, ← hnext]
      exact isList_add _ _ _ _

/-- Functions on elements demand their two arguments in turn, and the first failure is theirs. -/
theorem lands_both {rank : Ordinal.{0}} (hdemands : Demands rank) (hfits : Γ.Fits h) (habove : Γ.Above h rank)
    {x y : Ref} {a b : Outcome Int64} {left right : Ordinal.{0}} {m : Meaning} (hawaits : Γ.Awaits rs m)
    (hfirst : Γ.IsElem x a left) (hsecond : Γ.IsElem y b right) (hbelow : left < rank) (hbeside : right < rank)
    {next : Int64 → Int64 → Task (Next Code Value)}
    (hfailed : ∀ {Γ' : Legend} {e : EvalError}, a = .error e → Γ'.Answers (.error e) m)
    (hfailed' : ∀ {Γ' : Legend} {v : Int64} {e : EvalError}, a = .ok v → b = .error e → Γ'.Answers (.error e) m)
    (hrest : ∀ {Γ' h'} {v w : Int64}, Grows Γ h Γ' h' → a = .ok v → b = .ok w →
      Lands Γ' h' rs m ⟨h', events, .run (next v w), .walk rs :: stack⟩ stack) :
    Lands Γ h rs m ⟨h, events, .run (do
      let v ← Task.needInt (← .demand x)
      let w ← Task.needInt (← .demand y)
      next v w), .walk rs :: stack⟩ stack := by
  obtain ⟨left', hleft, hx⟩ := hfirst
  refine lands_force hdemands hfits habove hx (hleft.trans_lt hbelow) (by simp [Meaning.Defined]) ?_
  intro Γ₁ h₁ v hgrows₁ hanswers₁
  obtain ⟨right', hright, hy⟩ := hsecond.within hgrows₁.within
  have hawaits₁ := hawaits.within hgrows₁.within
  cases hanswers₁
  cases a with
  | error e => exact lands_fail hgrows₁.fits hawaits₁ (hfailed rfl)
  | ok a =>
    refine lands_force hdemands hgrows₁.fits (hgrows₁.above habove) hy (hright.trans_lt hbeside)
      (by simp [Meaning.Defined]) ?_
    intro Γ₂ h₂ v hgrows₂ hanswers₂
    cases hanswers₂
    cases b with
    | error e => exact lands_fail hgrows₂.fits (hawaits₁.within hgrows₂.within) (hfailed' rfl rfl)
    | ok b => exact hrest (hgrows₁.trans hgrows₂) rfl rfl

theorem plus_lands {rank : Ordinal.{0}} (hdemands : Demands rank) (hfits : Γ.Fits h) (habove : Γ.Above h rank)
    {x y : Ref}
    {a b : Outcome Int64} {left right : Ordinal.{0}} (hawaits : Γ.Awaits rs (.atom (some (.int <$> plusOf a b)) rank))
    (hfirst : Γ.IsElem x a left) (hsecond : Γ.IsElem y b right) (hbelow : left < rank) (hbeside : right < rank) :
    Lands Γ h rs (.atom (some (.int <$> plusOf a b)) rank)
      ⟨h, events, .run (Task.enter .plus [y, x]), .walk rs :: stack⟩ stack := by
  refine lands_both hdemands hfits habove hawaits hfirst hsecond hbelow hbeside ?_ ?_ ?_
  · rintro Γ' e rfl
    exact .atom _ _
  · rintro Γ' v e rfl rfl
    exact .atom _ _
  · rintro Γ' h' v w hgrows rfl rfl
    have hawaits' := hawaits.within hgrows.within
    have hsum : plusOf (.ok v) (.ok w) = Checked.add v w := rfl
    rw [hsum] at hawaits' ⊢
    generalize Checked.add v w = sum at hawaits' ⊢
    cases sum with
    | ok n => exact lands_value hgrows.fits hawaits' (.atom _ _)
    | error e => exact lands_fail hgrows.fits hawaits' (.atom _ _)

/-- The quotient of two numbers fits but for the least number and a divisor of minus one. -/
theorem fit?_tdiv_eq_none_iff {n p : Int64} (hp : p ≠ 0) :
    Checked.fit? (n.toInt.tdiv p.toInt) = none ↔ p = -1 ∧ n = Int64.minValue := by
  have hmin : Int64.minValue.toInt = -9223372036854775808 := by decide
  have hmax : Int64.maxValue.toInt = 9223372036854775807 := by decide
  have hone : (-1 : Int64).toInt = -1 := by decide
  have hzero : (0 : Int64).toInt = 0 := by decide
  have hlow := n.minValue_le_toInt
  have hhigh := n.toInt_le
  have hp' : p.toInt ≠ 0 := fun h => hp (Int64.toInt_inj.1 (h.trans hzero.symm))
  have hquotient := Int.natAbs_tdiv n.toInt p.toInt
  rw [Checked.fit?_eq_none_iff, ← Int64.toInt_inj, ← Int64.toInt_inj, hone, hmin, hmax]
  rw [hmin] at hlow
  rw [hmax] at hhigh
  by_cases hbig : 2 ≤ p.toInt.natAbs
  · have : n.toInt.natAbs.div p.toInt.natAbs ≤ n.toInt.natAbs / 2 := Nat.div_le_div_left hbig (by decide)
    omega
  · obtain hp | hp : p.toInt = 1 ∨ p.toInt = -1 := by omega
    · rw [hp, Int.tdiv_one]
      omega
    · rw [hp, Int.tdiv_neg, Int.tdiv_one]
      omega

/-- The remainder is cut off where there is no verdict, and tells the verdict otherwise. -/
theorem remainder_verdict (n p : Int64) :
    (verdict (.ok p) (.ok n) = none ∧ ∃ text, Task.remainder n p = .abort text) ∨
      ∃ r, verdict (.ok p) (.ok n) = some (.ok (r != 0)) ∧ Task.remainder n p = .done r := by
  by_cases hp : p = 0
  · exact .inl ⟨by simp [verdict, hp], _, by rw [Task.remainder, if_pos hp]⟩
  have hoverflow := fit?_tdiv_eq_none_iff (n := n) hp
  cases hfit : Checked.fit? (n.toInt.tdiv p.toInt) with
  | none => exact .inl ⟨by simp [verdict, hoverflow.1 hfit], _, by rw [Task.remainder, if_neg hp, hfit]⟩
  | some q =>
    have hsafe : ¬ (p = 0 ∨ p = -1 ∧ n = Int64.minValue) := by
      rw [← hoverflow, hfit]
      simp [hp]
    refine .inr ⟨n % p, ?_, ?_⟩
    · have hzero : (n % p).toInt != 0 ↔ n % p != 0 := by
        rw [bne_iff_ne, bne_iff_ne, ← Int64.toInt_zero, ne_eq, Int64.toInt_inj]
      rw [verdict, if_neg hsafe, ← Int64.toInt_mod, Bool.eq_iff_iff.2 hzero]
    · rw [Task.remainder, if_neg hp, hfit, ← Int64.toInt_mod, Int64.ofInt_toInt]
      rfl

theorem indivisible_lands {rank : Ordinal.{0}} (hdemands : Demands rank) (hfits : Γ.Fits h) (habove : Γ.Above h rank)
    {n p : Ref} {a b : Outcome Int64} {left right : Ordinal.{0}}
    (hawaits : Γ.Awaits rs (.atom ((verdict b a).map (Value.bool <$> ·)) rank))
    (hfirst : Γ.IsElem n a left) (hsecond : Γ.IsElem p b right) (hbelow : left < rank) (hbeside : right < rank) :
    Lands Γ h rs (.atom ((verdict b a).map (Value.bool <$> ·)) rank)
      ⟨h, events, .run (Task.enter .indivisible [n, p]), .walk rs :: stack⟩ stack := by
  refine lands_both hdemands hfits habove hawaits hfirst hsecond hbelow hbeside ?_ ?_ ?_
  · rintro Γ' e rfl
    exact .atom _ _
  · rintro Γ' v e rfl rfl
    exact .atom _ _
  · rintro Γ' h' v w hgrows rfl rfl
    have hawaits' := hawaits.within hgrows.within
    rcases remainder_verdict v w with ⟨hverdict, text, hremainder⟩ | ⟨r, hverdict, hremainder⟩
    · simp only [hverdict, hremainder]
      exact lands_abort text (by simp [Meaning.Defined])
    · simp only [hverdict, hremainder] at hawaits' ⊢
      exact lands_value hgrows.fits hawaits' (.atom _ _)

/-- a numbered element is demanded for one of its two cells, and the walk goes on there -/
theorem part_lands {rank low : Ordinal.{0}} (hbodies : ∀ low < rank, Bodies low) (hfits : Γ.Fits h)
    (habove : Γ.Above h rank) {r x y z : Ref} {a : Outcome Int64} {next : Outcome Value → Task (Next Code Value)}
    (hawaits : Γ.Awaits rs (.atom (some (.int <$> a)) rank))
    (hpair : Γ r = some (.atom (some (.ok (.numbered x y))) low)) (helem : Γ.IsElem z a low) (hbelow : low < rank)
    (hpicks : next (.ok (.numbered x y)) = .done (.cell z)) :
    Lands Γ h rs (.atom (some (.int <$> a)) rank) ⟨h, events, .run (.force r next), .walk rs :: stack⟩ stack := by
  refine lands_force (demands_of_bodies hbodies) hfits habove hpair hbelow (by simp [Meaning.Defined]) ?_
  intro Γ' h' o hgrows hanswers
  obtain ⟨inner, hinner, hz⟩ := helem.within hgrows.within
  cases hanswers
  rw [hpicks]
  refine lands_cell hbodies hgrows.fits (hgrows.above habove) (hawaits.within hgrows.within) hz (hinner.trans_lt hbelow)
    (by simp [Meaning.Defined]) ?_
  intro Γ'' o _ hanswers
  cases hanswers
  exact .atom _ _

/-- All code lands in a walk. -/
theorem bodies_land (rank : Ordinal.{0}) : Bodies rank := by
  induction rank using WellFoundedLT.induction with
  | ind rank hbodies =>
    intro Γ h m c hfits hcodes hrank habove rs hawaits events stack
    subst hrank
    -- all that code of this rank demands ranks lower
    have hdemands : Demands m.rank := demands_of_bodies hbodies
    cases hcodes with
    | int n rank => exact lands_value hfits hawaits (.atom _ _)
    | failing e rank => exact lands_fail hfits hawaits (.atom _ _)
    | broken hnode ranks => exact lands_fail hfits hawaits (.failed hnode _)
    | upFrom n ranks => exact upFrom_lands hfits hawaits
    | tail hlist hfirst hbelow => exact tail_lands hbodies hfits habove hawaits hlist hfirst hbelow
    | filter helem hlist hhigh hbelow => exact filter_lands hdemands hfits habove hawaits helem hlist hhigh hbelow
    | zip hfirst hsecond hbelow hbeside => exact zip_lands hdemands hfits habove hawaits hfirst hsecond hbelow hbeside
    | sieve hlist hbelow hhigh hlimit => exact sieve_lands hdemands hfits habove hawaits hlist hbelow hhigh hlimit
    | fibs hlist hgaps => exact fibs_lands hfits hawaits hlist hgaps
    | ones hlist hmono => exact ones_lands hfits hawaits hlist hmono
    | plus hfirst hsecond hbelow hbeside => exact plus_lands hdemands hfits habove hawaits hfirst hsecond hbelow hbeside
    | indivisible hfirst hsecond hbelow hbeside =>
      exact indivisible_lands hdemands hfits habove hawaits hfirst hsecond hbelow hbeside
    | pairs hfirst hsecond hbelow hbeside =>
      exact pairs_lands hdemands hfits habove hawaits hfirst hsecond hbelow hbeside
    | number x y rank => exact lands_value hfits hawaits (.atom _ _)
    | index hpair hbelow => exact part_lands hbodies hfits habove hawaits hpair.1 hpair.2.1 hbelow rfl
    | element hpair hbelow => exact part_lands hbodies hfits habove hawaits hpair.1 hpair.2.2 hbelow rfl

/-- A demand lands while no cell of the legend is in progress. -/
theorem demand_lands (hfits : Γ.Fits h) (hcalm : Γ.Calm h) {r : Ref} {m : Meaning} (hr : Γ r = some m)
    (events : List String) (stack : List (Frame Empty Code Value)) :
    Lands Γ h [] m ⟨h, events, .demand r, stack⟩ stack := by
  have habove : Γ.Above h (Order.succ m.rank) := fun q k hq hb => absurd hb (hcalm q k hq)
  exact demands_of_bodies (fun low _ => bodies_land low) hfits habove hr (Order.lt_succ _) events stack

end

end Demo

end ByNeed
