/-
What a sieve leaves.

Sieving a finite list is a matter of lists: each element strikes out its multiples behind it. Counting up from 2, this
leaves the primes: whatever has not been struck out when its turn comes has no smaller prime divisor.
- `Spells.filter`, `Spells.sieve`: filters and sieves of sequences that end behind some numbers, in any way.
- `sifted_primes`: by induction on the numbers still to come, a sieve leaves the primes among them.
- `sieve_primes`: what stands at each position of the sieve of the numbers from 2 on.
-/
import Mathlib.NumberTheory.PrimeCounting
import ByNeed.Proofs.Demo.Sequences

namespace ByNeed.Demo

/-! ## Finite lists -/

/-- the numbers that are no multiples of `p` -/
def spared (p : Int64) (ns : List Int64) : List Int64 := ns.filter fun n => n.toInt.tmod p.toInt != 0

/-- each number strikes out its multiples behind it -/
def sifted : List Int64 → List Int64
  | [] => []
  | p :: ns => p :: sifted (spared p ns)
termination_by ns => ns.length
decreasing_by exact Nat.lt_succ_of_le (List.length_filter_le _ _)

theorem verdict_ok {p n : Int64} (hnonzero : p ≠ 0) (hsafe : p = -1 → n ≠ Int64.minValue) :
    verdict (.ok p) (.ok n) = some (.ok (n.toInt.tmod p.toInt != 0)) := by
  have hdefined : ¬ (p = 0 ∨ p = -1 ∧ n = Int64.minValue) := by
    rintro (hp | ⟨hp, hn⟩)
    · exact hnonzero hp
    · exact hsafe hp hn
  rw [verdict, if_neg hdefined]

namespace Seq

variable {s : Seq} {p n : Int64} {ns : List Int64} {last : Node}

/-- these numbers, and then `last` -/
def Spells : Seq → List Int64 → Node → Prop
  | s, [], last => s 0 = last
  | s, n :: ns, last => s 0 = .item (.ok n) ∧ Spells (s.drop 1) ns last

theorem Spells.item (hspells : s.Spells ns last) {i : Nat} (hn : ns[i]? = some n) : s i = .item (.ok n) := by
  induction ns generalizing s i with
  | nil => cases hn
  | cons m ns ih =>
    obtain ⟨hfirst, hrest⟩ := hspells
    cases i with
    | zero =>
      cases hn
      exact hfirst
    | succ i => exact ih hrest hn

/-- A filter passes over multiples, and behind the last number there is nothing to drop. -/
theorem Spells.filter (hspells : s.Spells ns last) (hlast : ∀ o, last ≠ .item o) (hp : p ≠ 0)
    (hsafe : p = -1 → Int64.minValue ∉ ns) : (s.filter (.ok p)).Spells (spared p ns) last := by
  induction ns generalizing s with
  | nil =>
    have hend : s 0 = last := hspells
    have hstays : ¬ Dropped (.ok p) (s 0) := by
      rw [hend]
      cases last with
      | item o => exact absurd rfl (hlast o)
      | stop | failed | stuck => exact id
    show s.filter (.ok p) 0 = last
    rw [filter_kept hstays, hend]
    cases last with
    | item o => exact absurd rfl (hlast o)
    | stop | failed | stuck => rfl
  | cons n ns ih =>
    obtain ⟨hfirst, hrest⟩ := hspells
    have hlater := ih hrest fun hminus hmem => hsafe hminus (List.mem_cons_of_mem n hmem)
    have hverdict := verdict_ok (n := n) hp fun hminus hn => hsafe hminus (hn ▸ List.mem_cons_self)
    cases hkeep : n.toInt.tmod p.toInt != 0 with
    | false =>
      have hdropped : Dropped (.ok p) (s 0) := by rw [hfirst, Dropped, hverdict, hkeep]
      rw [filter_dropped hdropped, spared, List.filter_cons_of_neg (by simp [hkeep])]
      exact hlater
    | true =>
      have hstays : ¬ Dropped (.ok p) (s 0) := by
        rw [hfirst, Dropped, hverdict, hkeep]
        simp
      rw [spared, List.filter_cons_of_pos (by simpa using hkeep)]
      refine ⟨?_, ?_⟩
      · rw [filter_kept hstays, hfirst, kept, hverdict]
      · rw [filter_drop hstays]
        exact hlater

/-- **Sieving a sequence that ends.** -/
theorem Spells.sieve (hspells : s.Spells ns last) (hlast : ∀ o, last ≠ .item o) (hzero : 0 ∉ ns)
    (hsafe : ¬ (-1 ∈ ns ∧ Int64.minValue ∈ ns)) : s.sieve.Spells (sifted ns) last := by
  fun_induction sifted ns generalizing s with
  | case1 => exact hspells
  | case2 p ns ih =>
    obtain ⟨hfirst, hrest⟩ := hspells
    have hinner : ∀ n ∈ spared p ns, n ∈ p :: ns := fun n hn => List.mem_cons_of_mem p (List.mem_of_mem_filter hn)
    have hfiltered := hrest.filter hlast (fun hp => hzero (hp ▸ List.mem_cons_self)) fun hp hmem =>
      hsafe ⟨hp ▸ List.mem_cons_self, List.mem_cons_of_mem p hmem⟩
    refine ⟨hfirst, ?_⟩
    rw [sieve_drop hfirst]
    exact ih hfiltered (fun h => hzero (hinner 0 h)) fun h => hsafe ⟨hinner _ h.1, hinner _ h.2⟩

end Seq

/-! ## Primes -/

def word (n : Nat) : Int64 := Int64.ofInt n

/-- numbers are counted up to here -/
def limit : Nat := Int64.maxValue.toInt.toNat

theorem limit_eq : (limit : Int) = Int64.maxValue.toInt := Int.toNat_of_nonneg (by decide)

theorem limit_eq_pow : limit = 2 ^ 63 - 1 := by decide

theorem toInt_word_of_le {n : Nat} (hbelow : n ≤ limit) : (word n).toInt = n := by
  have := limit_eq
  refine Int64.toInt_ofInt_of_le ?_ ?_
  · omega
  · have hhigh : Int64.maxValue.toInt = 9223372036854775807 := by decide
    omega

theorem toInt_word {n : Nat} (hbelow : n < limit) : (word n).toInt = n := toInt_word_of_le hbelow.le

/-- no prime below `n` divides `m` -/
def Unstruck (n m : Nat) : Prop := ∀ q < n, q.Prime → ¬ q ∣ m

instance (n : Nat) : DecidablePred (Unstruck n) := fun m =>
  inferInstanceAs (Decidable (∀ q < n, q.Prime → ¬ q ∣ m))

theorem unstruck_succ {n m : Nat} : Unstruck (n + 1) m ↔ Unstruck n m ∧ (n.Prime → ¬ n ∣ m) := by
  constructor
  · intro h
    exact ⟨fun q hq => h q (Nat.lt_succ_of_lt hq), h n (Nat.lt_succ_self n)⟩
  · rintro ⟨h, hn⟩ q hq
    rcases Nat.lt_succ_iff_lt_or_eq.1 hq with hlt | rfl
    · exact h q hlt
    · exact hn

/-- what has not been struck out when its turn comes is prime -/
theorem unstruck_self {n : Nat} (htwo : 2 ≤ n) : Unstruck n n ↔ n.Prime := by
  constructor
  · intro h
    by_contra hcomposite
    have hlt := (Nat.not_prime_iff_minFac_lt htwo).1 hcomposite
    exact h n.minFac hlt (Nat.minFac_prime (by omega)) n.minFac_dvd
  · intro hprime q hlt hq hdivides
    have := (Nat.prime_dvd_prime_iff_eq hq hprime).1 hdivides
    omega

theorem spared_words {p : Nat} {ns : List Nat} (hbelow : p < limit) (hall : ∀ n ∈ ns, n < limit) :
    spared (word p) (ns.map word) = (ns.filter fun n => ¬ p ∣ n).map word := by
  rw [spared, List.filter_map]
  refine congrArg (List.map word) (List.filter_congr fun n hn => ?_)
  simp only [Function.comp_apply, toInt_word hbelow, toInt_word (hall n hn)]
  rw [Int.tmod_eq_emod_of_nonneg (Int.natCast_nonneg n), Bool.eq_iff_iff, bne_iff_ne, decide_eq_true_iff, ne_eq,
    ← Int.dvd_iff_emod_eq_zero, Int.natCast_dvd_natCast]

/-- **A sieve leaves the primes.** The numbers from `n` on that no smaller prime has struck out are sieved: what is left
are the primes among them. -/
theorem sifted_primes (n d : Nat) (htwo : 2 ≤ n) (hbelow : n + d ≤ limit) :
    sifted (((List.range' n d).filter fun m => Unstruck n m).map word) =
      ((List.range' n d).filter fun m => m.Prime).map word := by
  induction d generalizing n with
  | zero => simp [sifted]
  | succ d ih =>
    have hlater := ih (n + 1) (by omega) (by omega)
    rw [List.range'_succ, List.filter_cons, List.filter_cons]
    by_cases hprime : n.Prime
    · have hinner : ∀ m ∈ (List.range' (n + 1) d).filter fun m => Unstruck n m, m < limit := by
        intro m hm
        have := List.mem_range'_1.1 (List.mem_of_mem_filter hm)
        omega
      have hrest : ((List.range' (n + 1) d).filter fun m => Unstruck n m).filter (fun m => ¬ n ∣ m) =
          (List.range' (n + 1) d).filter fun m => Unstruck (n + 1) m := by
        rw [List.filter_filter]
        refine List.filter_congr fun m _ => ?_
        simp [unstruck_succ, hprime, and_comm]
      rw [if_pos (by simpa using (unstruck_self htwo).2 hprime), if_pos (by simpa using hprime), List.map_cons, sifted,
        spared_words (by omega) hinner, hrest, hlater, List.map_cons]
    · have hsame : ((List.range' (n + 1) d).filter fun m => Unstruck n m) =
          (List.range' (n + 1) d).filter fun m => Unstruck (n + 1) m := by
        refine List.filter_congr fun m _ => ?_
        simp [unstruck_succ, hprime]
      have hstruck : ¬ Unstruck n n := fun h => hprime ((unstruck_self htwo).1 h)
      rw [if_neg (by simpa using hstruck), if_neg (by simpa using hprime), hsame, hlater]

/-- the primes below a bound, one after another -/
theorem filter_prime_range (n : Nat) :
    ((List.range n).filter fun m => m.Prime) = (List.range (n.count Nat.Prime)).map (Nat.nth Nat.Prime) := by
  induction n with
  | zero => rfl
  | succ n ih =>
    rw [List.range_succ, List.filter_append, ih, Nat.count_succ]
    by_cases hprime : n.Prime
    · rw [if_pos hprime, List.range_succ, List.map_append, List.map_singleton, Nat.nth_count hprime]
      simp [hprime]
    · rw [if_neg hprime]
      simp [hprime]

namespace Seq

/-- counting comes to a halt just before the limit -/
theorem upFrom_spells (n d : Nat) (htotal : n + d = limit) : (upFrom n).Spells ((List.range' n d).map word) .stuck := by
  have hlimit := limit_eq
  induction d generalizing n with
  | zero => exact if_neg (by omega)
  | succ d ih =>
    refine ⟨if_pos (by omega), ?_⟩
    rw [upFrom_drop]
    exact ih (n + 1) (by omega)

/-- **What stands at each position of the sieve** of the numbers from 2 on, as far as they are counted. -/
theorem sieve_primes {i : Nat} (hbelow : Nat.nth Nat.Prime i < limit) :
    sieve (upFrom 2) i = .item (.ok (word (Nat.nth Nat.Prime i))) := by
  have hleast := (Nat.prime_nth_prime i).two_le
  have hinside : ∀ m ∈ List.range' 2 (limit - 2), 2 ≤ m ∧ m < limit := by
    intro m hm
    have := List.mem_range'_1.1 hm
    omega
  have hpositive : ∀ n ∈ (List.range' 2 (limit - 2)).map word, 0 < n.toInt := by
    intro n hn
    obtain ⟨m, hm, rfl⟩ := List.mem_map.1 hn
    obtain ⟨hlow, hhigh⟩ := hinside m hm
    rw [toInt_word hhigh]
    omega
  have hnonzero : 0 ∉ (List.range' 2 (limit - 2)).map word := fun h => absurd (hpositive 0 h) (by decide)
  have hsafe : Int64.minValue ∉ (List.range' 2 (limit - 2)).map word := fun h => absurd (hpositive _ h) (by decide)
  have hfresh : (List.range' 2 (limit - 2)).filter (fun m => Unstruck 2 m) = List.range' 2 (limit - 2) := by
    refine List.filter_eq_self.2 fun m _ => decide_eq_true fun q hq hprime => ?_
    exact absurd hprime.two_le (by omega)
  have hsieved := sifted_primes 2 (limit - 2) le_rfl (by omega)
  rw [hfresh] at hsieved
  have hall : ((List.range' 2 (limit - 2)).filter fun m => m.Prime) =
      (List.range (limit.count Nat.Prime)).map (Nat.nth Nat.Prime) := by
    have hsplit : List.range limit = [0, 1] ++ List.range' 2 (limit - 2) := by
      have htotal : 2 + (limit - 2) = limit := by omega
      rw [List.range_eq_range', show [0, 1] = List.range' 0 2 from rfl, List.range'_append_1, htotal]
    rw [← filter_prime_range, hsplit, List.filter_append]
    rfl
  have hposition : i < limit.count Nat.Prime := (Nat.lt_nth_iff_count_lt Nat.infinite_setOfPred_prime).2 hbelow
  have hspells : (upFrom 2).Spells ((List.range' 2 (limit - 2)).map word) .stuck :=
    upFrom_spells 2 (limit - 2) (by omega)
  have hleft := hspells.sieve (fun _ => Node.noConfusion) hnonzero fun h => hsafe h.2
  rw [hsieved, hall] at hleft
  refine hleft.item ?_
  rw [List.getElem?_map, List.getElem?_map, List.getElem?_range hposition]
  rfl

end Seq

end ByNeed.Demo
