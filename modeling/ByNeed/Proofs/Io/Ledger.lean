/-
Every byte that is written to a handle is accounted for.

The bytes that the device has taken, followed by those that are buffered, are the account of a handle. An operation adds
to it what it was given to write, in full if it succeeds and up to some point if it fails; nothing else ever changes
the account (`Wrote`). This holds however the device behaves: it may take fewer bytes than it is offered or none, fail
at any call, or say that it was interrupted.
- `pour_spec`: offering bytes to a device splits them into a part that was taken and a part that was not.
- `writeBlock_wrote`, `writeLines_wrote`: the two ways of buffering keep the account. Bytes go past the buffer only when
  it is empty, and into the buffer only as far as there is room.
- `serve_adds`: so does every sequence of requests.
-/
import ByNeed.Io.Handle
import ByNeed.Proofs.Failing
import Mathlib.Data.List.Forall2
import Mathlib.Data.List.TakeDrop
import Mathlib.Tactic.SplitIfs

namespace ByNeed

variable {σ : Type} [Device σ]

/-! ## Offering bytes -/

/-- `accepted` are the bytes that a device has, in the order in which it took them -/
structure Device.Records (accepted : σ → Bytes) : Prop where
  took : ∀ bytes device n device', Device.write bytes device = (.ok n, device') →
    accepted device' = accepted device ++ bytes.take n
  refused : ∀ bytes device e device', Device.write bytes device = (.error e, device') →
    accepted device' = accepted device
  flushed : ∀ device, accepted (Device.flush device).2 = accepted device

/-- a device says no more often than it announced that it was interrupted -/
structure Device.Honest (σ : Type) [Device σ] : Prop where
  writes : ∀ bytes (device : σ) answer device', Device.write bytes device = (answer, device') →
    Device.patience device' ≤ Device.patience device
  interrupted : ∀ bytes (device : σ) e device', Device.write bytes device = (.error e, device') →
    e.kind = .interrupted → Device.patience device' < Device.patience device

/-- bytes that are offered are split into those taken and those left; none are left if all went well -/
theorem pour_spec (zero : IoError) (fuel : Nat) (taken rest : Bytes) (device : σ) :
    ∃ more, (pour zero fuel taken rest device).taken = taken ++ more ∧
      more ++ (pour zero fuel taken rest device).rest = rest ∧
      ((pour zero fuel taken rest device).result = .ok () → (pour zero fuel taken rest device).rest = []) ∧
      ∀ accepted : σ → Bytes, Device.Records accepted →
        accepted (pour zero fuel taken rest device).device = accepted device ++ more := by
  induction fuel generalizing taken rest device with
  | zero => exact ⟨[], by simp [pour]⟩
  | succ fuel ih =>
    unfold pour
    split
    · rename_i hrest
      exact ⟨[], by simpa using hrest⟩
    · split
      · rename_i device' hwrite
        exact ⟨[], by simp, by simp, by simp, fun accepted hrecords => by simpa using hrecords.took _ _ _ _ hwrite⟩
      · rename_i n device' hn hwrite
        obtain ⟨more, htaken, hsplit, hok, haccepted⟩ := ih (taken ++ rest.take n) (rest.drop n) device'
        refine ⟨rest.take n ++ more, by rw [htaken, List.append_assoc], ?_, hok, fun accepted hrecords => ?_⟩
        · rw [List.append_assoc, hsplit, List.take_append_drop]
        · rw [haccepted accepted hrecords, hrecords.took _ _ _ _ hwrite, List.append_assoc]
      · rename_i e device' hwrite
        split
        · obtain ⟨more, htaken, hsplit, hok, haccepted⟩ := ih taken rest device'
          refine ⟨more, htaken, hsplit, hok, fun accepted hrecords => ?_⟩
          rw [haccepted accepted hrecords, hrecords.refused _ _ _ _ hwrite]
        · exact ⟨[], by simp, by simp, by simp,
            fun accepted hrecords => by simpa using hrecords.refused _ _ _ _ hwrite⟩

/-- with an honest device the steps suffice, so that an interruption is never the last word -/
theorem pour_not_interrupted (hhonest : Device.Honest σ) {zero : IoError} (hzero : zero.kind ≠ .interrupted)
    (fuel : Nat) (taken rest : Bytes) (device : σ) (henough : rest.length + Device.patience device < fuel) (e : IoError)
    (he : (pour zero fuel taken rest device).result = .error e) : e.kind ≠ .interrupted := by
  induction fuel generalizing taken rest device with
  | zero => omega
  | succ fuel ih =>
    unfold pour at he
    split at he
    · cases he
    · rename_i hrest
      have hlength : 0 < rest.length := List.length_pos_iff.2 (by simpa using hrest)
      split at he
      · cases he
        exact hzero
      · rename_i n device' hn hwrite
        have hcalm := hhonest.writes rest device _ device' hwrite
        refine ih _ _ _ ?_ he
        rw [List.length_drop]
        have : 0 < n := Nat.pos_of_ne_zero hn
        omega
      · rename_i e' device' hwrite
        split at he
        · rename_i hkind
          have hless := hhonest.interrupted rest device e' device' hwrite hkind
          exact ih _ _ _ (by omega) he
        · rename_i hkind
          cases he
          exact hkind

/-- all that matters of `p`, which came of offering `bytes` to `device` -/
structure Offered (bytes : Bytes) (device : σ) (p : Poured σ) : Prop where
  split : p.taken ++ p.rest = bytes
  all : p.result = .ok () → p.rest = []
  calm : Device.Honest σ → ∀ e, p.result = .error e → e.kind ≠ .interrupted
  taken : ∀ accepted : σ → Bytes, Device.Records accepted → accepted p.device = accepted device ++ p.taken

/-- bytes offered with as many steps as they may take -/
def offer (text : String) (bytes : Bytes) (device : σ) : Poured σ :=
  pour ⟨.writeZero, text⟩ (Handle.effort bytes device) [] bytes device

theorem offer_spec (text : String) (bytes : Bytes) (device : σ) : Offered bytes device (offer text bytes device) := by
  obtain ⟨more, htaken, hsplit, hall, haccepted⟩ :=
    pour_spec ⟨.writeZero, text⟩ (Handle.effort bytes device) [] bytes device
  rw [List.nil_append] at htaken
  refine ⟨by rw [offer, htaken, hsplit], hall, fun hhonest => ?_, fun accepted hrecords => ?_⟩
  · exact pour_not_interrupted hhonest (by simp) _ _ _ _ (Nat.lt_succ_self _)
  · rw [offer, htaken, haccepted accepted hrecords]

/-! ## The account of a handle -/

namespace Handle

/-- what was taken and what is buffered -/
def account (h : Handle σ) : Bytes := h.delivered ++ h.buffer

/-- `bytes` were added to the account; the buffer stays within its capacity, and what is newly said to be taken has gone
to the device -/
structure Adds (bytes : Bytes) (h h' : Handle σ) : Prop where
  account : h'.account = h.account ++ bytes
  name : h'.name = h.name
  capacity : h'.capacity = h.capacity
  fits : h.buffer.length ≤ h.capacity → h'.buffer.length ≤ h'.capacity
  taken : ∃ more, h'.delivered = h.delivered ++ more ∧
    ∀ accepted : σ → Bytes, Device.Records accepted → accepted h'.device = accepted h.device ++ more

/-- all of `bytes` were added to the account, or, after an error, those up to some point -/
def Wrote (bytes : Bytes) (h : Handle σ) : EStateM.Result IoError (Handle σ) Unit → Prop
  | .ok () h' => Adds bytes h h'
  | .error e h' => (∃ part, part <+: bytes ∧ Adds part h h') ∧ (Device.Honest σ → e.kind ≠ .interrupted)

theorem Adds.refl (h : Handle σ) : Adds [] h h := ⟨by simp, rfl, rfl, id, [], by simp, by simp⟩

theorem Adds.trans {a b : Bytes} {h h' h'' : Handle σ} (hfirst : Adds a h h') (hsecond : Adds b h' h'') :
    Adds (a ++ b) h h'' where
  account := by rw [hsecond.account, hfirst.account, List.append_assoc]
  name := hsecond.name.trans hfirst.name
  capacity := hsecond.capacity.trans hfirst.capacity
  fits := fun hwithin => hsecond.fits (hfirst.fits hwithin)
  taken := by
    obtain ⟨more, hmore, haccepted⟩ := hfirst.taken
    obtain ⟨more', hmore', haccepted'⟩ := hsecond.taken
    refine ⟨more ++ more', by rw [hmore', hmore, List.append_assoc], fun accepted hrecords => ?_⟩
    rw [haccepted' accepted hrecords, haccepted accepted hrecords, List.append_assoc]

/-- the device of a handle that starts afresh gets what is said to be taken -/
theorem Adds.accepted {bytes : Bytes} {h h' : Handle σ} (hadds : Adds bytes h h') (hfresh : h.delivered = [])
    (accepted : σ → Bytes) (hrecords : Device.Records accepted) :
    accepted h'.device = accepted h.device ++ h'.delivered := by
  obtain ⟨more, hmore, haccepted⟩ := hadds.taken
  rw [haccepted accepted hrecords, hmore, hfresh, List.nil_append]

/-- one operation after another: the second is made if the first succeeds -/
theorem Wrote.bind {a b : Bytes} {h : Handle σ} {x y : M σ Unit} (hfirst : Wrote a h (x h))
    (hsecond : ∀ h', x h = .ok () h' → Wrote b h' (y h')) : Wrote (a ++ b) h ((x >>= fun _ => y) h) := by
  cases hx : x h with
  | error e h' =>
    rw [hx] at hfirst
    rw [bind_error hx]
    obtain ⟨⟨part, hpart, hadds⟩, hcalm⟩ := hfirst
    exact ⟨⟨part, hpart.trans (List.prefix_append a b), hadds⟩, hcalm⟩
  | ok _ h' =>
    rw [hx] at hfirst
    rw [bind_ok hx]
    have hrest := hsecond h' hx
    cases hy : y h' with
    | ok _ h'' =>
      rw [hy] at hrest
      exact hfirst.trans hrest
    | error e h'' =>
      rw [hy] at hrest
      obtain ⟨⟨part, hpart, hadds⟩, hcalm⟩ := hrest
      exact ⟨⟨a ++ part, (List.prefix_append_right_inj a).2 hpart, hfirst.trans hadds⟩, hcalm⟩

/-- what comes of an operation that ends with the answer of a device -/
def report (answer : Except IoError Unit) (h : Handle σ) : EStateM.Result IoError (Handle σ) Unit :=
  match answer with
  | .ok () => .ok () h
  | .error e => .error e h

theorem Wrote.report {bytes part : Bytes} {h h' : Handle σ} {answer : Except IoError Unit} (hadds : Adds part h h')
    (hbegins : part <+: bytes) (hwhole : answer = .ok () → part = bytes)
    (hcalm : Device.Honest σ → ∀ e, answer = .error e → e.kind ≠ .interrupted) :
    Wrote bytes h (report answer h') := by
  cases answer with
  | ok _ =>
    cases hwhole rfl
    exact hadds
  | error e => exact ⟨⟨part, hbegins, hadds⟩, fun hhonest => hcalm hhonest e rfl⟩

theorem drain_eq (h : Handle σ) :
    let p := offer "failed to write the buffered data" h.buffer h.device
    drain h = report p.result { h with buffer := p.rest, delivered := h.delivered ++ p.taken, device := p.device } :=
  rfl

theorem bypass_eq (bytes : Bytes) (h : Handle σ) :
    let p := offer "failed to write whole buffer" bytes h.device
    bypass bytes h = report p.result { h with delivered := h.delivered ++ p.taken, device := p.device } :=
  rfl

/-- draining adds nothing; it moves bytes from the buffer to the device -/
theorem drain_wrote (h : Handle σ) : Wrote [] h (drain h) := by
  rw [drain_eq]
  have hoffered := offer_spec "failed to write the buffered data" h.buffer h.device
  refine .report ⟨?_, rfl, rfl, fun hwithin => ?_, _, rfl, hoffered.taken⟩ List.prefix_rfl (fun _ => rfl) hoffered.calm
  · simp [account, hoffered.split]
  · have hlength := congrArg List.length hoffered.split
    rw [List.length_append] at hlength
    dsimp only
    omega

/-- after a drain that succeeds the buffer is empty -/
theorem drain_empties {h h' : Handle σ} (hok : drain h = .ok () h') : h'.buffer = [] := by
  rw [drain_eq] at hok
  have hoffered := offer_spec "failed to write the buffered data" h.buffer h.device
  cases hanswer : (offer "failed to write the buffered data" h.buffer h.device).result with
  | ok _ =>
    rw [hanswer] at hok
    cases hok
    exact hoffered.all hanswer
  | error e =>
    rw [hanswer] at hok
    cases hok

/-- bytes that go past the buffer keep their place only if nothing waits in it -/
theorem bypass_wrote {bytes : Bytes} {h : Handle σ} (hclear : h.buffer = [] ∨ bytes = []) :
    Wrote bytes h (bypass bytes h) := by
  rw [bypass_eq]
  have hoffered := offer_spec "failed to write whole buffer" bytes h.device
  generalize offer "failed to write whole buffer" bytes h.device = p at hoffered
  have hclear' : h.buffer = [] ∨ p.taken = [] := by
    refine hclear.imp_right fun hbytes => ?_
    have hsplit := hoffered.split
    rw [hbytes] at hsplit
    exact (List.append_eq_nil_iff.1 hsplit).1
  refine .report ⟨?_, rfl, rfl, id, _, rfl, hoffered.taken⟩ ⟨p.rest, hoffered.split⟩ (fun hok => ?_) hoffered.calm
  · rcases hclear' with hnil | hnil <;> simp [account, hnil]
  · rw [← hoffered.split, hoffered.all hok, List.append_nil]

theorem append_wrote {bytes : Bytes} {h : Handle σ} (hroom : bytes.length ≤ h.capacity - h.buffer.length) :
    Wrote bytes h (append bytes h) := by
  refine ⟨?_, rfl, rfl, fun hwithin => ?_, [], by simp, by simp⟩
  · simp [account]
  · dsimp only
    rw [List.length_append]
    omega

omit [Device σ] in
theorem get_bind (f : Handle σ → M σ Unit) (h : Handle σ) : (get >>= f) h = f h h := rfl

/-- block buffering: bytes wait in the buffer if there is room, after a drain if need be; too many go past it -/
theorem writeBlock_wrote (bytes : Bytes) (h : Handle σ) : Wrote bytes h (writeBlock bytes h) := by
  unfold writeBlock
  rw [get_bind]
  dsimp only
  split_ifs with hshort hlong hwide hwide
  · exact append_wrote (Nat.le_of_lt hshort)
  · exact (drain_wrote h).bind fun h' hok => bypass_wrote (.inl (drain_empties hok))
  · refine (drain_wrote h).bind fun h' hok => append_wrote ?_
    have hdrained := drain_wrote h
    rw [hok] at hdrained
    rw [drain_empties hok, hdrained.capacity]
    exact Nat.le_of_not_le hwide
  · -- the bytes fill the room exactly, and yet the capacity: so nothing waits
    refine bypass_wrote ?_
    rw [← List.length_eq_zero_iff, ← List.length_eq_zero_iff]
    omega
  · exact append_wrote (Nat.le_of_not_lt hlong)

theorem splitLines_append {bytes lines tail : Bytes} (h : splitLines bytes = some (lines, tail)) :
    lines ++ tail = bytes := by
  unfold splitLines at h
  rw [List.span_eq_takeWhile_dropWhile] at h
  dsimp only at h
  split at h
  · cases h
  · cases h
    rw [← List.reverse_append, List.takeWhile_append_dropWhile, List.reverse_reverse]

/-- line buffering: whole lines are passed on at once, and what follows them waits -/
theorem writeLines_wrote (bytes : Bytes) (h : Handle σ) : Wrote bytes h (writeLines bytes h) := by
  unfold writeLines
  rw [get_bind]
  cases hsplit : splitLines bytes with
  | none =>
    dsimp only
    split_ifs
    · exact (drain_wrote h).bind fun h' _ => writeBlock_wrote bytes h'
    · exact writeBlock_wrote bytes h
  | some parts =>
    obtain ⟨lines, tail⟩ := parts
    rw [← splitLines_append hsplit]
    dsimp only
    split_ifs with hempty
    · exact (bypass_wrote (.inl (by simpa using hempty))).bind fun h' _ => writeBlock_wrote tail h'
    · refine (writeBlock_wrote lines h).bind fun h' _ => ?_
      exact (drain_wrote h').bind fun h'' _ => writeBlock_wrote tail h''

theorem writeBytes_wrote (bytes : Bytes) (h : Handle σ) : Wrote bytes h (writeBytes bytes h) := by
  unfold writeBytes
  rw [get_bind]
  split_ifs
  · exact writeLines_wrote bytes h
  · exact writeBlock_wrote bytes h

theorem writeAll_wrote (texts : List String) (h : Handle σ) :
    Wrote (texts.flatMap Text.encode) h (writeAll texts h) := by
  induction texts generalizing h with
  | nil => exact .refl h
  | cons s texts ih => exact (writeBytes_wrote (Text.encode s) h).bind fun h' _ => ih h'

/-- flushing adds nothing, and if it succeeds nothing is buffered any more -/
theorem flush_cases (h : Handle σ) :
    ∃ h', Adds [] h h' ∧ (flush h = .ok () h' ∧ h'.buffer = [] ∨ ∃ e, flush h = .error e h') := by
  have hdrained := drain_wrote h
  cases hdrain : drain h with
  | error e h' =>
    rw [hdrain] at hdrained
    obtain ⟨⟨part, hpart, hadds⟩, -⟩ := hdrained
    rw [List.prefix_nil] at hpart
    subst hpart
    exact ⟨h', hadds, .inr ⟨e, bind_error hdrain⟩⟩
  | ok _ h' =>
    rw [hdrain] at hdrained
    have hempty := drain_empties hdrain
    have hadds : Adds [] h { h' with device := (Device.flush h'.device).2 } := by
      refine hdrained.trans ⟨by simp [account], rfl, rfl, id, [], by simp, fun accepted hrecords => ?_⟩
      rw [List.append_nil]
      exact hrecords.flushed h'.device
    refine ⟨_, hadds, ?_⟩
    cases hflush : Device.flush h'.device with
    | mk answer device' =>
      cases answer with
      | ok _ =>
        refine .inl ⟨(bind_ok hdrain).trans ?_, hempty⟩
        simp only [hflush]
      | error e =>
        refine .inr ⟨e, (bind_ok hdrain).trans ?_⟩
        simp only [hflush]

/-! ## Sequences of requests -/

inductive Request where
  | write (s : String)
  | writeLine (s : String)
  /-- a text in pieces -/
  | writeAll (texts : List String)
  | flush

namespace Request

def bytes : Request → Bytes
  | write s => Text.encode s
  | writeLine s => Text.encode s ++ [newline]
  | writeAll texts => texts.flatMap Text.encode
  | flush => []

def perform : Request → M σ Unit
  | write s => Handle.write s
  | writeLine s => Handle.writeLine s
  | writeAll texts => Handle.writeAll texts
  | flush => Handle.flush

theorem perform_wrote (r : Request) (hwrites : r ≠ .flush) (h : Handle σ) : Wrote r.bytes h (r.perform h) := by
  cases r with
  | write s => exact writeBytes_wrote (Text.encode s) h
  | writeLine s => exact (writeBytes_wrote (Text.encode s) h).bind fun h' _ => writeBytes_wrote [newline] h'
  | writeAll texts => exact writeAll_wrote texts h
  | flush => exact absurd rfl hwrites

end Request

abbrev Entry := Request × Except IoError Unit

/-- the bytes that stand for a request in the account: all it was to write, or, after an error, those up to some
point -/
def Entry.Covers (entry : Entry) (piece : Bytes) : Prop :=
  piece <+: entry.1.bytes ∧ (entry.2 = .ok () → piece = entry.1.bytes)

/-- requests that all succeed are written in full -/
theorem flatten_of_covers {log : List Entry} {pieces : List Bytes} (hcovers : List.Forall₂ Entry.Covers log pieces)
    (hok : ∀ entry ∈ log, entry.2 = .ok ()) : pieces.flatten = log.flatMap fun entry => entry.1.bytes := by
  induction hcovers with
  | nil => rfl
  | cons hpiece _ ih =>
    obtain ⟨hfirst, hrest⟩ := List.forall_mem_cons.1 hok
    rw [List.flatten_cons, List.flatMap_cons, hpiece.2 hfirst, ih hrest]

/-- the answer to a request, and the handle after it -/
def ask (r : Request) (h : Handle σ) : Except IoError Unit × Handle σ :=
  match r.perform h with
  | .ok () h => (.ok (), h)
  | .error e h => (.error e, h)

/-- makes requests one after another, whatever comes of them -/
def serve : List Request → Handle σ → List Entry × Handle σ
  | [], h => ([], h)
  | r :: rs, h =>
    let (answer, h) := h.ask r
    let (log, h) := serve rs h
    ((r, answer) :: log, h)

/-- a request adds its bytes to the account -/
theorem ask_adds (r : Request) (h : Handle σ) :
    ∃ piece, Entry.Covers (r, (h.ask r).1) piece ∧ Adds piece h (h.ask r).2 := by
  by_cases hr : r = .flush
  · subst hr
    obtain ⟨h', hadds, ⟨heq, -⟩ | ⟨e, heq⟩⟩ := flush_cases h
    · exact ⟨[], ⟨List.prefix_rfl, fun _ => rfl⟩, by simpa [ask, Request.perform, heq] using hadds⟩
    · exact ⟨[], ⟨List.prefix_rfl, fun _ => rfl⟩, by simpa [ask, Request.perform, heq] using hadds⟩
  · have hwrote := r.perform_wrote hr h
    unfold ask
    cases heq : r.perform h with
    | ok _ h' =>
      rw [heq] at hwrote
      exact ⟨r.bytes, ⟨List.prefix_rfl, fun _ => rfl⟩, hwrote⟩
    | error e h' =>
      rw [heq] at hwrote
      obtain ⟨⟨part, hpart, hadds⟩, -⟩ := hwrote
      exact ⟨part, ⟨hpart, nofun⟩, hadds⟩

theorem ask_flush_empties {h : Handle σ} (hok : (h.ask .flush).1 = .ok ()) : (h.ask .flush).2.buffer = [] := by
  obtain ⟨h', -, ⟨heq, hempty⟩ | ⟨e, heq⟩⟩ := flush_cases h
  · simpa [ask, Request.perform, heq] using hempty
  · simp [ask, Request.perform, heq] at hok

/-- a device that was interrupted is asked again -/
theorem ask_not_interrupted (hhonest : Device.Honest σ) {r : Request} (hwrites : r ≠ .flush) {h : Handle σ}
    {e : IoError} (he : (h.ask r).1 = .error e) : e.kind ≠ .interrupted := by
  have hwrote := r.perform_wrote hwrites h
  unfold ask at he
  cases heq : r.perform h with
  | ok _ h' =>
    rw [heq] at he
    cases he
  | error e' h' =>
    rw [heq] at he hwrote
    cases he
    exact hwrote.2 hhonest

theorem serve_cons (r : Request) (rs : List Request) (h : Handle σ) :
    serve (r :: rs) h = ((r, (h.ask r).1) :: (serve rs (h.ask r).2).1, (serve rs (h.ask r).2).2) := rfl

theorem serve_requests (requests : List Request) (h : Handle σ) : (serve requests h).1.map Prod.fst = requests := by
  induction requests generalizing h with
  | nil => rfl
  | cons r rs ih => rw [serve_cons, List.map_cons, ih]

/-- **A sequence of requests adds the bytes of each**, in order. -/
theorem serve_adds (requests : List Request) (h : Handle σ) :
    ∃ pieces, List.Forall₂ Entry.Covers (serve requests h).1 pieces ∧ Adds pieces.flatten h (serve requests h).2 := by
  induction requests generalizing h with
  | nil => exact ⟨[], .nil, .refl h⟩
  | cons r rs ih =>
    obtain ⟨piece, hcovers, hadds⟩ := ask_adds r h
    obtain ⟨pieces, hall, hrest⟩ := ih (h.ask r).2
    exact ⟨piece :: pieces, .cons hcovers hall, hadds.trans hrest⟩

theorem serve_flushed {requests : List Request} {h : Handle σ}
    (hlast : (serve requests h).1.getLast? = some (.flush, .ok ())) : (serve requests h).2.buffer = [] := by
  induction requests generalizing h with
  | nil => cases hlast
  | cons r rs ih =>
    rw [serve_cons] at hlast ⊢
    cases rs with
    | nil =>
      obtain ⟨rfl, hok⟩ := Prod.mk.inj (Option.some.inj hlast)
      exact ask_flush_empties hok
    | cons r' rs' =>
      rw [serve_cons, List.getLast?_cons_cons] at hlast
      exact ih hlast

theorem serve_not_interrupted (hhonest : Device.Honest σ) {requests : List Request} {h : Handle σ} {entry : Entry}
    (hmem : entry ∈ (serve requests h).1) (hwrites : entry.1 ≠ .flush) {e : IoError} (he : entry.2 = .error e) :
    e.kind ≠ .interrupted := by
  induction requests generalizing h with
  | nil => cases hmem
  | cons r rs ih =>
    rw [serve_cons] at hmem
    rcases List.mem_cons.1 hmem with rfl | hlater
    · exact ask_not_interrupted hhonest hwrites he
    · exact ih hlater

/-- **Every byte is accounted for.** Whatever is asked of a new handle and however its device behaves: what the device
has taken, followed by what is buffered, is what was written, request by request, where a request that failed counts up
to some point. The buffer stays within its capacity, and a flush that succeeds leaves it empty. What is said to be taken
is what the device has, and a write fails because of an interruption only if the device goes back on its word. -/
theorem every_byte_accounted (name : String) (lineBuffered : Bool) (capacity : Nat) (device : σ)
    (requests : List Request) :
    let log := (serve requests (fresh name lineBuffered capacity device)).1
    let h := (serve requests (fresh name lineBuffered capacity device)).2
    log.map Prod.fst = requests ∧
    (∃ pieces, List.Forall₂ Entry.Covers log pieces ∧ h.delivered ++ h.buffer = pieces.flatten) ∧
    h.buffer.length ≤ capacity ∧
    (log.getLast? = some (.flush, .ok ()) → h.buffer = []) ∧
    (∀ accepted : σ → Bytes, Device.Records accepted → accepted h.device = accepted device ++ h.delivered) ∧
    (Device.Honest σ → ∀ entry ∈ log, entry.1 ≠ .flush → ∀ e, entry.2 = .error e → e.kind ≠ .interrupted) := by
  obtain ⟨pieces, hcovers, hadds⟩ := serve_adds requests (fresh name lineBuffered capacity device)
  refine ⟨serve_requests requests _, ⟨pieces, hcovers, hadds.account⟩, ?_, serve_flushed, hadds.accepted rfl,
    fun hhonest entry hmem hwrites e he => serve_not_interrupted hhonest hmem hwrites he⟩
  have hwithin := hadds.fits (Nat.zero_le capacity)
  rw [hadds.capacity] at hwithin
  exact hwithin

/-- a device that takes one byte at a time, after a number of interruptions -/
structure Drip where
  kept : Bytes
  interruptions : Nat

instance : Device Drip where
  write bytes device :=
    match device with
    | ⟨kept, 0⟩ => (.ok 1, ⟨kept ++ bytes.take 1, 0⟩)
    | ⟨kept, n + 1⟩ => (.error ⟨.interrupted, "interrupted"⟩, ⟨kept, n⟩)
  flush device := (.ok (), device)
  patience device := device.interruptions

theorem Drip.records : Device.Records Drip.kept := by
  refine ⟨fun bytes device n device' hwrite => ?_, fun bytes device e device' hwrite => ?_, fun _ => rfl⟩
  · obtain ⟨kept, _ | m⟩ := device <;> cases hwrite
    rfl
  · obtain ⟨kept, _ | m⟩ := device <;> cases hwrite
    rfl

theorem Drip.honest : Device.Honest Drip := by
  refine ⟨fun bytes device answer device' hwrite => ?_, fun bytes device e device' hwrite _ => ?_⟩
  · obtain ⟨kept, _ | m⟩ := device <;> cases hwrite
    · exact Nat.le_refl 0
    · exact Nat.le_succ m
  · obtain ⟨kept, _ | m⟩ := device <;> cases hwrite
    exact Nat.lt_succ_self m

/-- a line-buffered handle with room for two bytes: the device gets the line `abc`, byte by byte, and `d` waits; that
the device was interrupted is not seen -/
theorem every_byte_accounted_drip :
    ∃ (log : List Entry) (h : Handle Drip),
      serve [.write "a", .writeLine "bc", .write "d"] (fresh "out" true 2 ⟨[], 3⟩) = (log, h) ∧
      h.device.kept = [97, 98, 99, 10] ∧ h.buffer = [100] ∧
      ∀ entry ∈ log, entry.1 ≠ .flush → ∀ e, entry.2 = .error e → e.kind ≠ .interrupted := by
  obtain ⟨-, -, -, -, hkept, hcalm⟩ :=
    every_byte_accounted "out" true 2 (⟨[], 3⟩ : Drip) [.write "a", .writeLine "bc", .write "d"]
  refine ⟨_, _, rfl, (hkept Drip.kept Drip.records).trans ?_, ?_, hcalm Drip.honest⟩
  · decide +kernel
  · decide +kernel

end Handle

end ByNeed
