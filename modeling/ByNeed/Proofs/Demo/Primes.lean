/-
The primes program prints the primes.

The program takes the beginning of the numbered sieve, which demands the entries but not what they hold. It then prints
the number and the element of each entry, and these are demanded one by one.
- `take_pairs`: reading the beginning of a numbered list hands out pairs of cells, with their meanings.
- `print_step`, `print_run`: one numbered element, and then all of them, are printed, a line each.
- `primes_printed`: the whole program.
-/
import ByNeed.Proofs.Demo.Jobs
import ByNeed.Proofs.Demo.Sieve
import ByNeed.Proofs.Demo.Takes

namespace ByNeed.Demo

open Machine Legend Host

/-! ## Reading numbered elements -/

section

variable {W : Type} {Γ : Legend} {s t : Session W Code Value} {xs : Ref} {q q' : Seq} {ranks : Nat → Ordinal.{0}}

/-- a procedure that leaves the world alone leaves it as it was when it settles -/
theorem settles_world {α : Type} {x : Nat → Host W Code Value α} {o : Outcome α} (hsettles : Settles x s o t)
    (hkeeps : ∀ n s, (ending (x n s)).world = s.world) : t.world = s.world := by
  obtain ⟨steps, henough⟩ := hsettles.ends
  have hsame := hkeeps steps s
  have hended := henough steps le_rfl
  cases hx : x steps s with
  | ok a u =>
    rw [hx] at hsame
    rw [attempt_ok hx] at hended
    cases hended
    exact hsame
  | error stop u =>
    rw [hx] at hsame
    obtain ⟨e, -, -, rfl⟩ := attempt_error hx hended
    exact hsame

/-- forcing a cell that has a meaning with an outcome -/
theorem force_settles_meaning {m : Meaning} (hfits : Γ.Fits s.heap) (hcalm : Γ.Calm s.heap) (hxs : Γ xs = some m)
    (hdefined : m.Defined) : ∃ Γ' o t, Settles (fun n => force (engine n) xs) s o t ∧ Γ'.Answers o m ∧
      Grows Γ s.heap Γ' t.heap ∧ t.world = s.world := by
  rcases force_yields hfits hcalm hxs with ⟨-, Γ', o, t, hsettles, hanswers, hgrows⟩ | ⟨hm, -⟩
  · exact ⟨Γ', o, t, hsettles, hanswers, hgrows, settles_world hsettles fun n => force_world (engine n) xs⟩
  · exact absurd hdefined hm

/-- the value is a pair of cells for these two numbers -/
def Shows (Γ : Legend) (p : Int64 × Int64) (v : Value) : Prop :=
  ∃ x y high, v = .numbered x y ∧ Γ.IsElem x (.ok p.1) high ∧ Γ.IsElem y (.ok p.2) high

theorem Shows.within {Γ' : Legend} {p : Int64 × Int64} {v : Value} (hshows : Shows Γ p v) (hw : Γ.Within Γ') :
    Shows Γ' p v := by
  obtain ⟨x, y, high, hv, hfirst, hsecond⟩ := hshows
  exact ⟨x, y, high, hv, hfirst.within hw, hsecond.within hw⟩

/-- Reading the beginning of a numbered list hands out pairs of cells. -/
theorem take_pairs (hfits : Γ.Fits s.heap) (hcalm : Γ.Calm s.heap) (hxs : Γ xs = some (.pairs q q' ranks))
    {ps : List (Int64 × Int64)}
    (hitems : ∀ i p, ps[i]? = some p → q i = .item (.ok p.1) ∧ q' i = .item (.ok p.2)) (seen : List Value) :
    ∃ Γ' t vs, Settles (fun n => takeFrom (engine n) seen ps.length xs) s (.ok (seen.reverse ++ vs)) t ∧
      Grows Γ s.heap Γ' t.heap ∧ t.world = s.world ∧ List.Forall₂ (Shows Γ') ps vs := by
  induction ps generalizing Γ s xs q q' ranks seen with
  | nil =>
    refine ⟨Γ, s, [], ?_, .refl hfits, rfl, .nil⟩
    rw [List.append_nil]
    exact .pure seen.reverse s
  | cons p ps ih =>
    obtain ⟨hfirst, hsecond⟩ := hitems 0 p rfl
    have hnode : Seq.zip q q' 0 = .item (plusOf (.ok p.1) (.ok p.2)) := by simp [Seq.zip, hfirst, hsecond]
    obtain ⟨Γ₁, o, t₁, hsettles₁, hanswers₁, hgrows₁, hworld₁⟩ :=
      force_settles_meaning hfits hcalm hxs (by simp [Meaning.Defined, hnode])
    cases hanswers₁ with
    | pairsFailed hnode' | pairsNil hnode' =>
      rw [hnode] at hnode'
      cases hnode'
    | @pairsCons _ _ a b _ r x y rs hfirst' hsecond' hhead htail =>
      rw [hfirst] at hfirst'
      rw [hsecond] at hsecond'
      cases hfirst'
      cases hsecond'
      obtain ⟨hr, hleft, hright⟩ := hhead
      -- the entry is demanded too, and is a pair of cells; these are left alone
      have hcalm₁ := hgrows₁.keeps_calm hcalm
      obtain ⟨Γ₂, o, t₂, hsettles₂, hanswers₂, hgrows₂, hworld₂⟩ :=
        force_settles_meaning hgrows₁.fits hcalm₁ hr (by simp [Meaning.Defined])
      cases hanswers₂
      obtain ⟨Γ₃, t₃, vs, hsettles₃, hgrows₃, hworld₃, hshows⟩ := ih hgrows₂.fits (hgrows₂.keeps_calm hcalm₁)
        (hgrows₂.within _ _ htail) (fun i p hp => hitems (i + 1) p hp) (.numbered x y :: seen)
      have hw := hgrows₂.within.trans hgrows₃.within
      refine ⟨Γ₃, t₃, .numbered x y :: vs, ?_, (hgrows₁.trans hgrows₂).trans hgrows₃, ?_, .cons ?_ hshows⟩
      · rw [List.reverse_cons, List.append_assoc] at hsettles₃
        exact hsettles₁.bind (hsettles₂.bind hsettles₃)
      · rw [hworld₃, hworld₂, hworld₁]
      · exact ⟨x, y, _, rfl, hleft.within hw, hright.within hw⟩

/-- applying an accessor: a cell is made and forced -/
theorem apply_settles (hfits : Γ.Fits s.heap) (hcalm : Γ.Calm s.heap) {f : Prim} {r : Ref} {n : Int64}
    {rank : Ordinal.{0}} (hcodes : Γ.Codes (.enter f [r]) (.atom (some (.ok (.int n))) rank)) :
    ∃ Γ' z t u, applyTo f r s = .ok z t ∧ Settles (fun n => force (engine n) z) t (.ok (.int n)) u ∧
      Grows Γ s.heap Γ' u.heap ∧ u.world = s.world := by
  have hgrows := grows_delay hfits (hcodes.within (within_add hfits _))
  obtain ⟨Γ', o, u, hsettles, hanswers, hgrows', hworld⟩ := force_settles_meaning
    (s := ⟨s.heap.push (.pending (.enter f [r])), s.events, s.world⟩) hgrows.fits (hgrows.keeps_calm hcalm)
    (add_self _ _ _) (by simp [Meaning.Defined])
  cases hanswers
  exact ⟨Γ', _, _, u, rfl, hsettles, hgrows.trans hgrows', hworld⟩

end

/-! ## Printing -/

section

variable {σ μ : Type} [Device (σ × μ)] {Γ : Legend} {s : Session (Context σ μ) Code Value}

def numberedLine (p : Int64 × Int64) : Act :=
  .ask .stdout (.writeLine (toString p.1.toInt ++ ": " ++ toString p.2.toInt))

/-- one element is printed, and then the others are -/
theorem print_step (hfits : Γ.Fits s.heap) (hcalm : Γ.Calm s.heap) (hcaptured : s.world.Captured) {p : Int64 × Int64}
    {v : Value} (hshows : Shows Γ p v) (vs : List Value) :
    ∃ Γ' t, Grows Γ s.heap Γ' t.heap ∧ t.world = s.world.act (numberedLine p) ∧
      ∀ {o u}, Settles (fun n => printNumbered (engine n) vs) t o u →
        Settles (fun n => printNumbered (engine n) (v :: vs)) s o u := by
  obtain ⟨x, y, high, rfl, hfirst, hsecond⟩ := hshows
  have hgrows₁ := grows_ready hfits (v := .numbered x y) (.atom _ high)
  have hcalm₁ := hgrows₁.keeps_calm hcalm
  -- both accessors are applied to this cell, so they rank just above it
  have hpair : (Γ.add s.heap.size _).IsPair s.heap.size x y (.ok p.1) (.ok p.2) high :=
    ⟨add_self _ _ _, hfirst.within hgrows₁.within, hsecond.within hgrows₁.within⟩
  obtain ⟨Γ₂, i, t₂, u₂, hmade₂, hsettles₂, hgrows₂, hworld₂⟩ :=
    apply_settles (s := ⟨s.heap.push (.value (.numbered x y)), s.events, s.world⟩) hgrows₁.fits hcalm₁
      (.index hpair (Order.lt_succ high))
  obtain ⟨Γ₃, e, t₃, u₃, hmade₃, hsettles₃, hgrows₃, hworld₃⟩ :=
    apply_settles hgrows₂.fits (hgrows₂.keeps_calm hcalm₁) (.element (hpair.within hgrows₂.within) (Order.lt_succ high))
  have hworld : u₃.world = s.world := hworld₃.trans hworld₂
  have hwrites := io_ask (C := Code) (V := Value) (s := u₃) (by rwa [hworld]) .stdout
    (.writeLine (toString p.1.toInt ++ ": " ++ toString p.2.toInt))
  refine ⟨Γ₃, ⟨u₃.heap, u₃.events, u₃.world.act (numberedLine p)⟩, (hgrows₁.trans hgrows₂).trans hgrows₃, ?_, ?_⟩
  · exact congrArg (fun c => c.act (numberedLine p)) hworld
  · intro o u hrest
    unfold printNumbered
    refine Settles.bind (Settles.of_ok rfl) ?_
    refine Settles.bind (Settles.of_ok hmade₂) (Settles.bind hsettles₂ ?_)
    refine Settles.bind (Settles.of_ok hmade₃) (Settles.bind hsettles₃ ?_)
    exact Settles.bind (Settles.of_ok hwrites) hrest

/-- all elements are printed, in order -/
theorem print_run (hfits : Γ.Fits s.heap) (hcalm : Γ.Calm s.heap) (hcaptured : s.world.Captured)
    {ps : List (Int64 × Int64)} {vs : List Value} (hshows : List.Forall₂ (Shows Γ) ps vs) :
    ∃ t, Settles (fun n => printNumbered (engine n) vs) s (.ok ()) t ∧
      t.world = s.world.after (ps.map numberedLine) := by
  induction ps generalizing Γ s vs with
  | nil =>
    cases hshows
    exact ⟨s, .pure () s, rfl⟩
  | cons p ps ih =>
    obtain ⟨v, others, hfirst, hrest, rfl⟩ := List.forall₂_cons_left_iff.1 hshows
    obtain ⟨Γ', t, hgrows, hworld, hstep⟩ := print_step hfits hcalm hcaptured hfirst others
    have hcaptured' : t.world.Captured := by
      rw [hworld]
      exact (Context.act_captured hcaptured _).1
    obtain ⟨u, hsettles, hworld'⟩ := ih hgrows.fits (hgrows.keeps_calm hcalm) hcaptured'
      (hrest.imp fun _ _ hshows => hshows.within hgrows.within)
    refine ⟨u, hstep hsettles, ?_⟩
    rw [hworld', hworld]
    rfl

/-! ## The program -/

/-- the job, with its list described -/
def printPrimes (E : Engine Empty Code Value) (count : Nat) : Host (Context σ μ) Code Value Unit := do
  let primes ← (Blueprint.sieve (.upFrom 2)).build
  let list ← numbered primes
  let beginning ← take E count list
  printNumbered E beginning

theorem perform_primes (E : Engine Empty Code Value) (count : Nat) (s : Session (Context σ μ) Code Value) :
    Job.perform E (.primes count) s = (printPrimes E count >>= fun _ => Host.ready .unit) s := by
  simp only [Job.perform, printPrimes, Blueprint.build, bind_assoc]

omit [Device (σ × μ)] in
/-- numbering a list -/
theorem numbered_makes (hfits : Γ.Fits s.heap) {xs : Ref} {q : Seq} {bound : Ordinal.{0}}
    (hlist : Γ.IsList xs q fun _ => bound) :
    ∃ r t Γ' ranks, numbered xs s = .ok r t ∧ Grows Γ s.heap Γ' t.heap ∧ t.world = s.world ∧
      Γ' r = some (.pairs (.upFrom 1) q ranks) := by
  have hgrows₁ := grows_delay hfits (Codes.upFrom (Γ := Γ.add s.heap.size _) 1 fun _ => 0)
  have hw := within_add hgrows₁.fits (.pairs (.upFrom 1) q fun _ => Order.succ bound)
  have hcodes := Codes.pairs ((isList_add Γ s.heap.size (.upFrom 1) fun _ => 0).within hw)
    (hlist.within (hgrows₁.within.trans hw)) (fun _ => Order.lt_succ_of_le zero_le) fun _ => Order.lt_succ bound
  exact ⟨_, _, _, _, rfl, hgrows₁.trans (grows_delay hgrows₁.fits hcodes), rfl, add_self _ _ _⟩

/-- the numbers from 1 on with the primes -/
noncomputable def numberedPrimes (count : Nat) : List (Int64 × Int64) :=
  (List.range count).map fun i => (word (i + 1), word (Nat.nth Nat.Prime i))

theorem succ_lt_limit {i : Nat} (hbelow : Nat.nth Nat.Prime i < limit) : i + 1 < limit :=
  lt_of_le_of_lt (Nat.le_of_succ_le (Nat.add_two_le_nth_prime i)) hbelow

theorem numberedPrimes_items {count : Nat} (hbelow : ∀ i < count, Nat.nth Nat.Prime i < limit) (i : Nat)
    (p : Int64 × Int64) (hp : (numberedPrimes count)[i]? = some p) :
    Seq.upFrom 1 i = .item (.ok p.1) ∧ Seq.sieve (Seq.upFrom 2) i = .item (.ok p.2) := by
  rw [numberedPrimes, List.getElem?_map, Option.map_eq_some_iff] at hp
  obtain ⟨j, hj, rfl⟩ := hp
  obtain ⟨hi, hij⟩ := List.getElem?_eq_some_iff.1 hj
  rw [List.length_range] at hi
  rw [List.getElem_range] at hij
  subst hij
  refine ⟨?_, Seq.sieve_primes (hbelow i hi)⟩
  have hcounted : (1 : Int) + i < Int64.maxValue.toInt := by
    have := succ_lt_limit (hbelow i hi)
    have := limit_eq
    omega
  have hsame : (1 : Int) + i = (i + 1 : Nat) := by omega
  rw [Seq.upFrom, if_pos hcounted, hsame]
  rfl

/-- the job prints the numbered primes -/
theorem printPrimes_settles (hcaptured : s.world.Captured) {count : Nat}
    (hbelow : ∀ i < count, Nat.nth Nat.Prime i < limit) :
    ∃ t, Settles (fun n => printPrimes (engine n) count) s (.ok ()) t ∧
      t.world = s.world.after ((numberedPrimes count).map numberedLine) := by
  have hfits : Legend.Fits (fun _ => none) s.heap := ⟨nofun, nofun, nofun⟩
  obtain ⟨primes, t₁, Γ₁, bound, hmade₁, hgrows₁, hlist₁⟩ := build_makes (.sieve (.upFrom 2)) hfits
  have hworld₁ : t₁.world = s.world := by
    cases hmade₁
    rfl
  obtain ⟨list, t₂, Γ₂, ranks, hmade₂, hgrows₂, hworld₂, hlist₂⟩ := numbered_makes hgrows₁.fits hlist₁
  have hcalm₂ := hgrows₂.keeps_calm (hgrows₁.keeps_calm nofun)
  obtain ⟨Γ₃, t₃, vs, hsettles₃, hgrows₃, hworld₃, hshows⟩ :=
    take_pairs hgrows₂.fits hcalm₂ hlist₂ (numberedPrimes_items hbelow) []
  rw [numberedPrimes, List.length_map, List.length_range] at hsettles₃
  have hworld : t₃.world = s.world := hworld₃.trans (hworld₂.trans hworld₁)
  obtain ⟨t, hsettles, hacts⟩ := print_run hgrows₃.fits (hgrows₃.keeps_calm hcalm₂) (by rwa [hworld]) hshows
  refine ⟨t, ?_, by rw [hacts, hworld]⟩
  exact (Settles.of_ok hmade₁).bind ((Settles.of_ok hmade₂).bind (hsettles₃.bind hsettles))

theorem toString_word {n : Nat} (hbelow : n < limit) : toString (word n).toInt = toString n := by
  rw [toInt_word hbelow]
  rfl

noncomputable def primesText (count : Nat) : Bytes :=
  (List.range count).flatMap fun i =>
    Text.encode (toString (i + 1) ++ ": " ++ toString (Nat.nth Nat.Prime i)) ++ [Handle.newline]

theorem bytes_numberedPrimes {count : Nat} (hbelow : ∀ i < count, Nat.nth Nat.Prime i < limit) :
    ((numberedPrimes count).map numberedLine).flatMap (Act.bytes .stdout) = primesText count := by
  rw [numberedPrimes, List.map_map, List.flatMap_map, primesText]
  refine List.flatMap_congr fun i hi => ?_
  have hp := hbelow i (List.mem_range.1 hi)
  simp only [Function.comp_apply, numberedLine, Act.bytes, if_pos, Handle.Request.bytes, toString_word hp,
    toString_word (succ_lt_limit hp)]

theorem bytes_numberedPrimes_stderr (count : Nat) :
    ((numberedPrimes count).map numberedLine).flatMap (Act.bytes .stderr) = [] := by
  refine List.flatMap_eq_nil_iff.2 fun act hact => ?_
  obtain ⟨p, -, rfl⟩ := List.mem_map.1 hact
  rfl

omit [Device (σ × μ)] in
/-- the entry cell holds code, which hands out the job -/
theorem force_primesEntry (count : Nat) (heap : Heap Unit Code Value) (events : List String) (c : Context σ μ) :
    ∃ s₀, s₀.world = c ∧ Settles (fun n => force (engine n) heap.size)
      ⟨heap.push (.pending (.primesEntry count)), events, c⟩ (.ok (.action (.primitive (.primes count)))) s₀ := by
  let h : Heap Unit Code Value := heap.push (.pending (.primesEntry count))
  let busy : Heap Unit Code Value := h.setIfInBounds heap.size (.busy ())
  let job : Outcome Value := .ok (.action (.primitive (.primes count)))
  have hgranted : h.claim heap.size = (.granted (.primesEntry count), busy) := by
    simp [h, busy, Heap.claim]
  have hclaims : step (engine 0) ⟨h, events, .demand heap.size, []⟩ =
      ⟨busy, events, .run (Code.primesEntry count).body, [.walk [heap.size]]⟩ := by
    simp only [step, hgranted]
    rfl
  have hreach : Reaches (engine 0) ⟨h, events, .demand heap.size, []⟩
      ⟨busy.settleAll job [heap.size], events, .give job, []⟩ :=
    .head hclaims.symm (.head rfl (.head rfl .refl))
  exact ⟨_, rfl, settles_force (s := ⟨h, events, c⟩) hreach⟩

end

/-- **The primes are printed.** The output is captured, buffered in either way and with any capacity. If all primes asked
for are smaller than the largest number, the program succeeds, given enough steps: standard output has got the primes in
increasing order, numbered from 1 on, one a line, and nothing else has been written. A remainder by zero or an overflow
would abort the program, so there is none on the way. -/
theorem primes_printed {count : Nat} (hbelow : ∀ i < count, Nat.nth Nat.Prime i < 2 ^ 63 - 1) (settings : Settings)
    (stdin : Source) (heap : Heap Unit Code Value) (events : List String) :
    ∃ steps, ∀ fuel ≥ steps,
      let run : Host (Context Target) Code Value (Except Failure (Option Int32)) := do
        (dialect fuel).runProgram (← (Program.primes count).entry)
      ∃ s', run ⟨heap, events, .fresh settings stdin .memory .memory⟩ = .ok (.ok none) s' ∧
        s'.world.stdout.buffer = [] ∧ s'.world.stdout.delivered = primesText count ∧
        s'.world.stderr.buffer = [] ∧ s'.world.stderr.delivered = [] := by
  rw [← limit_eq_pow] at hbelow
  have hcaptured := Context.fresh_captured settings stdin
  obtain ⟨s₀, hworld₀, hentry⟩ := force_primesEntry count heap events
    (.fresh settings stdin Target.memory Target.memory)
  rw [← hworld₀] at hcaptured
  obtain ⟨s₁, hjob, hacts⟩ := printPrimes_settles hcaptured hbelow
  obtain ⟨steps, hforced⟩ := hentry.ends
  obtain ⟨steps', hprinted⟩ := hjob.ends
  refine ⟨max 2 (max steps steps'), fun fuel hfuel => ?_⟩
  have hsteps : max steps steps' ≤ fuel := le_of_max_le_right hfuel
  have henters : (dialect fuel).Enters heap.size _ (.primitive (.primes count)) s₀ :=
    ⟨_, attempt_ok_iff.1 (hforced fuel (le_of_max_le_left hsteps)), rfl⟩
  obtain ⟨s', hreturned, hflushed⟩ := runProgram_prints (le_of_max_le_left hfuel) henters (perform_primes _ count s₀)
    (hprinted fuel (le_of_max_le_right hsteps)) (hacts ▸ Context.after_captured hcaptured _)
  obtain ⟨hbufferOut, hout⟩ := hflushed .stdout
  obtain ⟨hbufferErr, herr⟩ := hflushed .stderr
  rw [hacts, Context.after_account hcaptured, hworld₀] at hout herr
  rw [bytes_numberedPrimes hbelow] at hout
  rw [bytes_numberedPrimes_stderr] at herr
  exact ⟨s', hreturned, hbufferOut, hout, hbufferErr, herr⟩

/-- the first four primes, through a buffer of three bytes that is not flushed at the end of a line -/
theorem primes_printed_four :
    (∀ i < 4, Nat.nth Nat.Prime i < 2 ^ 63 - 1) ∧ ∃ fuel,
      let run : Host (Context Target) Code Value (Except Failure (Option Int32)) := do
        (dialect fuel).runProgram (← (Program.primes 4).entry)
      ∃ s', run ⟨#[], [], .fresh ⟨false, 3, .warn, true⟩ [] .memory .memory⟩ = .ok (.ok none) s' ∧
        s'.world.stdout.delivered = Text.encode "1: 2\n2: 3\n3: 5\n4: 7\n" := by
  have hfirst : Nat.nth Nat.Prime 0 = 2 := Nat.nth_count (p := Nat.Prime) (n := 2) (by decide)
  have hsecond : Nat.nth Nat.Prime 1 = 3 := Nat.nth_count (p := Nat.Prime) (n := 3) (by decide)
  have hthird : Nat.nth Nat.Prime 2 = 5 := Nat.nth_count (p := Nat.Prime) (n := 5) (by decide)
  have hfourth : Nat.nth Nat.Prime 3 = 7 := Nat.nth_count (p := Nat.Prime) (n := 7) (by decide)
  have hbelow : ∀ i < 4, Nat.nth Nat.Prime i < 2 ^ 63 - 1 := by
    intro i hi
    interval_cases i <;> simp [hfirst, hsecond, hthird, hfourth]
  have hwritten : primesText 4 = Text.encode "1: 2\n2: 3\n3: 5\n4: 7\n" := by
    have hnumbers : List.range 4 = [0, 1, 2, 3] := rfl
    simp only [primesText, hnumbers, List.flatMap_cons, List.flatMap_nil, hfirst, hsecond, hthird, hfourth]
    decide +kernel
  obtain ⟨steps, henough⟩ := primes_printed hbelow ⟨false, 3, .warn, true⟩ [] #[] []
  obtain ⟨s', hreturned, -, hdelivered, -⟩ := henough steps le_rfl
  exact ⟨hbelow, steps, s', hreturned, hdelivered.trans hwritten⟩

end ByNeed.Demo
