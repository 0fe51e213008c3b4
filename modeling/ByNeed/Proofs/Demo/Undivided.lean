/-
What is left of any list after sieving.

A sieve tests an element only against those that it has kept. That is enough: what has been struck out is a multiple of
something kept, and so are its own multiples. What is left are the elements that nothing before them divides.
- `spells_of_take`: a sequence that reads as some numbers ends behind them.
- `sifted_unstruck`: by induction on the numbers still to come, with all those that came before at hand.
- `Lists`: the first cell of a list of numbers, in whatever state of evaluation.
-/
import ByNeed.Proofs.Demo.Sieve
import ByNeed.Proofs.Demo.Takes

namespace ByNeed.Demo

open Machine Legend Host

/-! ## Sequences of numbers -/

namespace Seq

variable {s : Seq} {ns : List Int64}

theorem Spells.take (hspells : s.Spells ns .stop) (k : Nat) : s.take k = some (.ok (ns.take k)) := by
  induction k generalizing s ns with
  | zero => rfl
  | succ k ih =>
    cases ns with
    | nil =>
      have hstop : s 0 = .stop := hspells
      rw [Seq.take, hstop]
      rfl
    | cons n ns =>
      obtain ⟨hfirst, hrest⟩ := hspells
      rw [Seq.take, hfirst]
      simp only [ih hrest]
      rfl

/-- what reads as these numbers, with room for one more, is these numbers -/
theorem spells_of_take (hreads : s.take (ns.length + 1) = some (.ok ns)) : s.Spells ns .stop := by
  induction ns generalizing s with
  | nil =>
    rw [List.length_nil, Seq.take] at hreads
    show s 0 = .stop
    cases hnode : s 0 with
    | stop => rfl
    | item o => cases o <;> simp [hnode, Seq.take] at hreads
    | failed | stuck => simp [hnode] at hreads
  | cons n ns ih =>
    rw [List.length_cons, Seq.take] at hreads
    cases hnode : s 0 with
    | item o =>
      cases o with
      | error e => simp [hnode] at hreads
      | ok v =>
        simp only [hnode, Option.map_eq_some_iff] at hreads
        obtain ⟨o, hrest, hsame⟩ := hreads
        cases o with
        | error e => cases hsame
        | ok vs =>
          cases hsame
          exact ⟨hnode, ih hrest⟩
    | stop | failed | stuck => simp [hnode] at hreads

end Seq

/-! ## What nothing before divides -/

def NoneDivides (ms : List Int64) (n : Int64) : Prop := ∀ m ∈ ms, ¬ m.toInt ∣ n.toInt

instance (ms : List Int64) : DecidablePred (NoneDivides ms) := fun n =>
  List.decidableBAll (fun m : Int64 => ¬ m.toInt ∣ n.toInt) ms

/-- the numbers that none of those before them divides -/
def undivided (ns : List Int64) : List Int64 :=
  (ns.zipIdx.filter fun (n, i) => NoneDivides (ns.take i) n).map Prod.fst

theorem noneDivides_append {ms : List Int64} {m n : Int64} :
    NoneDivides (ms ++ [m]) n ↔ NoneDivides ms n ∧ ¬ m.toInt ∣ n.toInt := by
  simp [NoneDivides, or_imp, forall_and]

theorem mem_spared {p n : Int64} {ns : List Int64} : n ∈ spared p ns ↔ n ∈ ns ∧ ¬ p.toInt ∣ n.toInt := by
  rw [spared, List.mem_filter, bne_iff_ne, ne_eq, Int.dvd_iff_tmod_eq_zero]

theorem spared_unstruck (p : Int64) (ms ns : List Int64) :
    spared p (ns.filter fun n => NoneDivides ms n) = ns.filter fun n => NoneDivides (ms ++ [p]) n := by
  rw [spared, List.filter_filter]
  refine List.filter_congr fun n _ => ?_
  rw [Bool.eq_iff_iff, Bool.and_eq_true, bne_iff_ne, ne_eq, ← Int.dvd_iff_tmod_eq_zero, decide_eq_true_iff,
    decide_eq_true_iff, noneDivides_append, and_comm]

/-- **Testing the kept elements is enough.** The numbers still to come that nothing so far divides are sieved: what is
left are those that nothing before them divides. -/
theorem sifted_unstruck (ms ns : List Int64) :
    sifted (ns.filter fun n => NoneDivides ms n) =
      ((ns.zipIdx ms.length).filter fun (n, i) => NoneDivides ((ms ++ ns).take i) n).map Prod.fst := by
  induction ns generalizing ms with
  | nil => simp [sifted]
  | cons n ns ih =>
    have hlater := ih (ms ++ [n])
    rw [List.append_assoc, List.singleton_append, List.length_append, List.length_singleton] at hlater
    have hbefore : (ms ++ n :: ns).take ms.length = ms := List.take_left
    rw [List.zipIdx_cons, List.filter_cons, List.filter_cons]
    simp only [hbefore]
    by_cases hfree : NoneDivides ms n
    · rw [if_pos (decide_eq_true hfree), if_pos (decide_eq_true hfree), sifted, spared_unstruck, hlater, List.map_cons]
    · -- a multiple of the number is one of what has struck it out
      have hsame : (ns.filter fun k => NoneDivides ms k) = ns.filter fun k => NoneDivides (ms ++ [n]) k := by
        refine List.filter_congr fun k _ => decide_eq_decide.2 ?_
        rw [noneDivides_append, iff_self_and]
        simp only [NoneDivides, not_forall, not_not] at hfree
        obtain ⟨m, hm, hdivides⟩ := hfree
        exact fun hnone hmore => hnone m hm (hdivides.trans hmore)
      rw [if_neg (by simpa using hfree), if_neg (by simpa using hfree), hsame, hlater]

theorem sifted_eq_undivided (ns : List Int64) : sifted ns = undivided ns := by
  have hall := sifted_unstruck [] ns
  rwa [List.filter_eq_self.2 (by simp [NoneDivides])] at hall

theorem sifted_subset (ns : List Int64) : sifted ns ⊆ ns := by
  fun_induction sifted ns with
  | case1 => exact List.Subset.refl _
  | case2 p ns ih => exact List.cons_subset_cons p fun n hn => List.mem_of_mem_filter (ih hn)

theorem sifted_nodup (ns : List Int64) : (sifted ns).Nodup := by
  fun_induction sifted ns with
  | case1 => exact List.nodup_nil
  | case2 p ns ih =>
    refine List.nodup_cons.2 ⟨fun hagain => ?_, ih⟩
    exact (mem_spared.1 (sifted_subset _ hagain)).2 (dvd_refl _)

/-! ## Lists of numbers -/

variable {W : Type} {s t : Session W Code Value} {xs : Ref} {ns : List Int64}

/-- The first cell of a list of these numbers. Any of its cells may have been evaluated, and none is in progress. -/
def Lists (s : Session W Code Value) (xs : Ref) (ns : List Int64) : Prop :=
  ∃ (Γ : Legend) (q : Seq) (bound : Ordinal.{0}), Γ.Fits s.heap ∧ Γ.Calm s.heap ∧ (Γ.IsList xs q fun _ => bound) ∧
    q.Spells ns .stop

/-- a list is read, and is still there -/
theorem Lists.takes (hlists : Lists s xs ns) (ks : List Nat) :
    ∃ t, Settles (fun n => takes (engine n) ks xs) s (.ok (ks.map fun k => .ok ((ns.take k).map .int))) t ∧
      Lists t xs ns := by
  obtain ⟨Γ, q, bound, hfits, hcalm, hlist, hspells⟩ := hlists
  have hread : (ks.mapM fun k => q.take k) = some (ks.map fun k => .ok (ns.take k)) := by
    rw [mapM_eq_some_iff, List.map_map]
    exact List.map_congr_left fun k _ => (hspells.take k).symm
  have hyields := takes_yield hfits hcalm hlist ks
  rw [hread] at hyields
  obtain ⟨Γ', t, hsettles, hgrows⟩ := hyields
  refine ⟨t, ?_, Γ', q, bound, hgrows.fits, hgrows.keeps_calm hcalm, hlist.within hgrows.within, hspells⟩
  simp only [List.map_map] at hsettles
  exact hsettles

theorem Lists.take (hlists : Lists s xs ns) (k : Nat) :
    ∃ t, Settles (fun n => take (engine n) k xs) s (.ok ((ns.take k).map .int)) t := by
  obtain ⟨Γ, q, bound, hfits, hcalm, hlist, hspells⟩ := hlists
  have hyields := takeFrom_yields hfits hcalm hlist [] k
  rw [hspells.take k] at hyields
  obtain ⟨Γ', t, hsettles, -⟩ := hyields
  exact ⟨t, hsettles⟩

/-- the sieve of a list is one -/
theorem Lists.sieve (hlists : Lists s xs ns) (hnonzero : 0 ∉ ns) (hsafe : ¬ (-1 ∈ ns ∧ Int64.minValue ∈ ns)) :
    ∃ ys t, Host.delay (fun _ => .sieve xs) s = .ok ys t ∧ Lists t ys (undivided ns) := by
  obtain ⟨Γ, q, bound, hfits, hcalm, hlist, hspells⟩ := hlists
  obtain ⟨ys, t, Γ', bound', hmade, hgrows, hlist'⟩ := sieve_makes hfits hlist
  refine ⟨ys, t, hmade, Γ', _, bound', hgrows.fits, hgrows.keeps_calm hcalm, hlist', ?_⟩
  rw [← sifted_eq_undivided]
  exact hspells.sieve (fun _ => Node.noConfusion) hnonzero hsafe

/-- what is built has a meaning -/
theorem build_isList {b : Blueprint} (hbuilt : b.build s = .ok xs t) :
    ∃ (Γ : Legend) (bound : Ordinal.{0}), Γ.Fits t.heap ∧ Γ.Calm t.heap ∧ Γ.IsList xs b.seq fun _ => bound := by
  have hfits : Legend.Fits (fun _ => none) s.heap := ⟨nofun, nofun, nofun⟩
  obtain ⟨xs', t', Γ, bound, hmade, hgrows, hlist⟩ := build_makes b hfits
  rw [hbuilt] at hmade
  cases hmade
  exact ⟨Γ, bound, hgrows.fits, hgrows.keeps_calm nofun, hlist⟩

theorem build_lists {b : Blueprint} (hspells : b.seq.Spells ns .stop) (hbuilt : b.build s = .ok xs t) :
    Lists t xs ns := by
  obtain ⟨Γ, bound, hfits, hcalm, hlist⟩ := build_isList hbuilt
  exact ⟨Γ, b.seq, bound, hfits, hcalm, hlist, hspells⟩

/-- a described list that reads as these numbers has them -/
theorem spells_of_read {b : Blueprint} {fuel : Nat} {t' : Session W Code Value} (hbuilt : b.build s = .ok xs t)
    (hread : take (engine fuel) (ns.length + 1) xs t = .ok (ns.map .int) t') : b.seq.Spells ns .stop := by
  obtain ⟨Γ, bound, hfits, hcalm, hlist⟩ := build_isList hbuilt
  have hyields := takeFrom_yields hfits hcalm hlist [] (ns.length + 1)
  have hended := attempt_ok hread
  refine Seq.spells_of_take ?_
  cases hreads : b.seq.take (ns.length + 1) with
  | none =>
    rw [hreads] at hyields
    exact absurd hended (hyields fuel _ _)
  | some o =>
    rw [hreads] at hyields
    obtain ⟨Γ', u, hsettles, -⟩ := hyields
    obtain ⟨hsame, -⟩ := hsettles.only hended
    cases o with
    | error e => cases hsame
    | ok ms =>
      have hvalues : ns.map Value.int = ms.map Value.int := Except.ok.inj hsame
      rw [List.map_injective_iff.2 (fun _ _ h => Value.int.inj h) hvalues]

/-- **A sieve leaves what nothing before divides.** Take any list of numbers other than zero that does not hold both -1
and the least number. Whatever state of evaluation its cells are in, all of its sieve can be read, given enough steps,
any number of times and any part of it: these are the elements that no earlier element divides, in their order, and each
appears once. Lists that are described and have been read in part are such lists, if they read as these numbers. -/
theorem sieve_leaves_undivided (hnonzero : 0 ∉ ns) (hsafe : ¬ (-1 ∈ ns ∧ Int64.minValue ∈ ns)) :
    (∀ (s : Session W Code Value) (xs : Ref), Lists s xs ns →
      ∃ ys t, Host.delay (fun _ => .sieve xs) s = .ok ys t ∧ ∀ ks, ∃ steps, ∀ fuel ≥ steps, ∃ t',
        takes (engine fuel) ks ys t = .ok (ks.map fun k => .ok (((undivided ns).take k).map .int)) t') ∧
    (undivided ns).Nodup ∧
    ∀ (b : Blueprint) (s : Session W Code Value) xs t, b.build s = .ok xs t →
      (∃ fuel t', take (engine fuel) (ns.length + 1) xs t = .ok (ns.map .int) t') →
      ∀ ks fuel results t', takes (engine fuel) ks xs t = .ok results t' → Lists t' xs ns := by
  refine ⟨fun s xs hlists => ?_, sifted_eq_undivided ns ▸ sifted_nodup ns, ?_⟩
  · obtain ⟨ys, t, hmade, hsieved⟩ := hlists.sieve hnonzero hsafe
    refine ⟨ys, t, hmade, fun ks => ?_⟩
    obtain ⟨t', hsettles, -⟩ := hsieved.takes ks
    obtain ⟨steps, henough⟩ := hsettles.ends
    exact ⟨steps, fun fuel hfuel => ⟨t', attempt_ok_iff.1 (henough fuel hfuel)⟩⟩
  · rintro b s xs t hbuilt ⟨fuel, t', hread⟩ ks fuel' results t'' hended
    obtain ⟨u, hsettles, hlists⟩ := (build_lists (spells_of_read hbuilt hread) hbuilt).takes ks
    obtain ⟨-, rfl⟩ := hsettles.only (attempt_ok hended)
    exact hlists

/-- the numbers -2, 3, 3 and the least number, as sums -/
def signs : Blueprint :=
  .zip (.literal [.int (-1), .int 3, .int 2, .int Int64.minValue]) (.literal [.int (-1), .int 0, .int 1, .int 0])

theorem signs_spells : signs.seq.Spells [-2, 3, 3, Int64.minValue] .stop := ⟨rfl, rfl, rfl, rfl, rfl⟩

/-- two of them have been read when they are sieved: 3 comes again, and the least number is a multiple of -2 -/
theorem sieve_leaves_undivided_signs :
    ∃ xs t fuel t' ys u, signs.build (⟨#[], [], ()⟩ : Session Unit Code Value) = .ok xs t ∧
      takes (engine fuel) [2] xs t = .ok [.ok [.int (-2), .int 3]] t' ∧
      Host.delay (fun _ => .sieve xs) t' = .ok ys u ∧ ∃ fuel u',
        takes (engine fuel) [6, 1] ys u = .ok [.ok [.int (-2), .int 3], .ok [.int (-2)]] u' := by
  have hnonzero : (0 : Int64) ∉ [-2, 3, 3, Int64.minValue] := by decide
  have hsafe : ¬ ((-1 : Int64) ∈ [-2, 3, 3, Int64.minValue] ∧ Int64.minValue ∈ [-2, 3, 3, Int64.minValue]) := by decide
  have hleft : undivided [-2, 3, 3, Int64.minValue] = [-2, 3] := by decide
  obtain ⟨hsieves, -, hlists⟩ := sieve_leaves_undivided (W := Unit) hnonzero hsafe
  have hbuilt : ∃ xs t, signs.build (⟨#[], [], ()⟩ : Session Unit Code Value) = .ok xs t := ⟨_, _, rfl⟩
  obtain ⟨xs, t, hbuilt⟩ := hbuilt
  have hsigned := build_lists signs_spells hbuilt
  obtain ⟨end₁, hwhole⟩ := hsigned.take 5
  obtain ⟨fuel₁, hall⟩ := hwhole.ends
  obtain ⟨t', hpart, -⟩ := hsigned.takes [2]
  obtain ⟨fuel₂, hsome⟩ := hpart.ends
  have hread := attempt_ok_iff.1 (hall fuel₁ le_rfl)
  have hbegun := attempt_ok_iff.1 (hsome fuel₂ le_rfl)
  obtain ⟨ys, u, hmade, henough⟩ :=
    hsieves t' xs (hlists signs _ xs t hbuilt ⟨fuel₁, end₁, hread⟩ [2] fuel₂ _ t' hbegun)
  obtain ⟨fuel₃, hreads⟩ := henough [6, 1]
  obtain ⟨u', hsieved⟩ := hreads fuel₃ le_rfl
  rw [hleft] at hsieved
  exact ⟨xs, t, fuel₂, t', ys, u, hbuilt, hbegun, hmade, fuel₃, u', hsieved⟩

end ByNeed.Demo
