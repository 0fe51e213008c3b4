/-
A line-buffered handle passes every line on.

What is written up to a newline goes to the device at once. If the device fails half way, lines are stranded in the
buffer, and the next write has to pass them on before anything else. So newlines stand in few places only: a buffer is
tidy if it has no newline, or ends with one. Stranded lines reach to its very end, where a later write sees them.
- `Leaves`: what an operation makes of the buffer, whether it succeeds or fails; one operation after another.
- `writeLines_leaves`: from a tidy buffer, a write leaves no newline if it succeeds, and a tidy buffer if it fails.
- `serve_tidy`, `serve_clear`: so the buffer is tidy after every sequence of requests, and clear after a write.
-/
import ByNeed.Proofs.Io.Ledger
import Mathlib.Data.List.TakeWhile

namespace ByNeed.Handle

variable {σ : Type} {before between after failed : Bytes → Prop} {x y : M σ Unit} {bytes buffer : Bytes}

/-! ## Buffers -/

def Clear (buffer : Bytes) : Prop := newline ∉ buffer

/-- the buffer has no newline, or ends with one -/
def Tidy (buffer : Bytes) : Prop := newline ∉ buffer ∨ buffer.getLast? = some newline

theorem clear_nil : Clear [] := List.not_mem_nil

theorem tidy_nil : Tidy [] := .inl List.not_mem_nil

/-- what is left of a tidy buffer is tidy: bytes are taken off its front -/
theorem tidy_suffix (htidy : Tidy buffer) {rest : Bytes} (hends : rest <:+ buffer) : Tidy rest := by
  obtain ⟨taken, rfl⟩ := hends
  rcases htidy with hclear | hlast
  · exact .inl fun hmem => hclear (List.mem_append_right taken hmem)
  · by_cases hempty : rest = []
    · rw [hempty]
      exact tidy_nil
    · rw [List.getLast?_append_of_ne_nil taken hempty] at hlast
      exact .inr hlast

theorem splitLines_none (hsplit : splitLines bytes = none) : Clear bytes := by
  unfold splitLines at hsplit
  rw [List.span_eq_takeWhile_dropWhile] at hsplit
  dsimp only at hsplit
  split_ifs at hsplit with hempty
  rw [List.isEmpty_iff, List.dropWhile_eq_nil_iff] at hempty
  intro hmem
  have hother := hempty newline (List.mem_reverse.2 hmem)
  simp at hother

/-- the lines end with a newline, and there is none after them -/
theorem splitLines_some {lines tail : Bytes} (hsplit : splitLines bytes = some (lines, tail)) :
    lines.getLast? = some newline ∧ Clear tail := by
  unfold splitLines at hsplit
  rw [List.span_eq_takeWhile_dropWhile] at hsplit
  dsimp only at hsplit
  split_ifs at hsplit with hempty
  rw [List.isEmpty_iff] at hempty
  obtain ⟨rfl, rfl⟩ := Prod.mk.inj (Option.some.inj hsplit)
  constructor
  · have hfound := List.head_dropWhile_not (· != newline) hempty
    rw [List.getLast?_reverse, List.head?_eq_some_head hempty]
    simpa using hfound
  · intro hmem
    have hother := List.mem_takeWhile_imp (List.mem_reverse.1 hmem)
    simp at hother

/-! ## Operations -/

/-- the handle is line-buffered, and its buffer is `after` a success or `failed` after a failure -/
def Left (after failed : Bytes → Prop) : EStateM.Result IoError (Handle σ) Unit → Prop
  | .ok () h => h.lineBuffered = true ∧ after h.buffer
  | .error _ h => h.lineBuffered = true ∧ failed h.buffer

/-- what an operation leaves of the buffer of a line-buffered handle -/
def Leaves (before after failed : Bytes → Prop) (x : M σ Unit) : Prop :=
  ∀ h, h.lineBuffered = true → before h.buffer → Left after failed (x h)

theorem Leaves.bind (hfirst : Leaves before between failed x) (hsecond : Leaves between after failed y) :
    Leaves before after failed (x >>= fun _ => y) := by
  intro h hlines hstart
  have hmid := hfirst h hlines hstart
  cases hx : x h with
  | error e h₁ =>
    rw [hx] at hmid
    rw [bind_error hx]
    exact hmid
  | ok _ h₁ =>
    rw [hx] at hmid
    rw [bind_ok hx]
    exact hsecond h₁ hmid.1 hmid.2

theorem Leaves.get_bind {f : Handle σ → M σ Unit}
    (heach : ∀ h, h.lineBuffered = true → before h.buffer → Leaves (· = h.buffer) after failed (f h)) :
    Leaves before after failed (get >>= f) :=
  fun h hlines hstart => heach h hlines hstart h hlines rfl

/-- it is enough to know what is left of each buffer -/
theorem Leaves.of_each (heach : ∀ buffer, before buffer → Leaves (· = buffer) after failed x) :
    Leaves before after failed x :=
  fun h hlines hstart => heach h.buffer hstart h hlines rfl

theorem Leaves.pre {before' : Bytes → Prop} (hleaves : Leaves before after failed x)
    (hstart : ∀ b, before' b → before b) : Leaves before' after failed x :=
  fun h hlines hb => hleaves h hlines (hstart h.buffer hb)

theorem Leaves.post {after' failed' : Bytes → Prop} (hleaves : Leaves before after failed x)
    (hsuccess : ∀ b, after b → after' b) (hfailure : ∀ b, failed b → failed' b) : Leaves before after' failed' x := by
  intro h hlines hstart
  have hleft := hleaves h hlines hstart
  cases hx : x h with
  | ok _ h' =>
    rw [hx] at hleft
    exact ⟨hleft.1, hsuccess _ hleft.2⟩
  | error e h' =>
    rw [hx] at hleft
    exact ⟨hleft.1, hfailure _ hleft.2⟩

theorem append_leaves (bytes buffer : Bytes) (failed : Bytes → Prop) :
    Leaves (· = buffer) (· = buffer ++ bytes) failed (append bytes : M σ Unit) := by
  rintro h hlines rfl
  exact ⟨hlines, rfl⟩

section

variable [Device σ]

/-- a drain takes bytes off the front of the buffer -/
theorem drain_leaves (buffer : Bytes) : Leaves (· = buffer) (· = []) (· <:+ buffer) (drain : M σ Unit) := by
  rintro h hlines rfl
  rw [drain_eq]
  have hoffered := offer_spec "failed to write the buffered data" h.buffer h.device
  generalize offer "failed to write the buffered data" h.buffer h.device = p at hoffered
  cases hanswer : p.result with
  | ok _ => exact ⟨hlines, hoffered.all hanswer⟩
  | error e => exact ⟨hlines, p.taken, hoffered.split⟩

theorem drain_tidy : Leaves Tidy Clear Tidy (drain : M σ Unit) := by
  refine .of_each fun buffer htidy => (drain_leaves buffer).post ?_ fun b hends => tidy_suffix htidy hends
  rintro b rfl
  exact clear_nil

/-- bytes that go past the buffer leave it alone -/
theorem bypass_leaves (bytes : Bytes) (before : Bytes → Prop) :
    Leaves before before before (bypass bytes : M σ Unit) := by
  intro h hlines hstart
  rw [bypass_eq]
  cases (offer "failed to write whole buffer" bytes h.device).result with
  | ok _ | error _ => exact ⟨hlines, hstart⟩

/-- What a write in blocks can leave: the buffer as it was or nothing, and the bytes behind the one or the other. If it
fails, a part of the buffer is left. -/
inductive Blocked (bytes buffer : Bytes) : Bytes → Prop where
  | same : Blocked bytes buffer buffer
  | emptied : Blocked bytes buffer []
  | added : Blocked bytes buffer (buffer ++ bytes)
  | alone : Blocked bytes buffer bytes

theorem writeBlock_leaves (bytes buffer : Bytes) :
    Leaves (· = buffer) (Blocked bytes buffer) (· <:+ buffer) (writeBlock bytes : M σ Unit) := by
  refine .get_bind ?_
  rintro h - rfl
  have hadded : Leaves (· = h.buffer) (Blocked bytes h.buffer) (· <:+ h.buffer) (append bytes : M σ Unit) := by
    refine (append_leaves bytes h.buffer (· <:+ h.buffer)).post ?_ fun _ hends => hends
    rintro b rfl
    exact .added
  dsimp only
  split_ifs
  · exact hadded
  · refine (drain_leaves h.buffer).bind ((bypass_leaves bytes (· = [])).post ?_ ?_)
    · rintro b rfl
      exact .emptied
    · rintro b rfl
      exact List.nil_suffix
  · refine (drain_leaves h.buffer).bind ((append_leaves bytes [] (· <:+ h.buffer)).post ?_ fun _ hends => hends)
    rintro b rfl
    exact .alone
  · refine (bypass_leaves bytes (· = h.buffer)).post ?_ ?_
    · rintro b rfl
      exact .same
    · rintro b rfl
      exact List.suffix_rfl
  · exact hadded

/-- bytes without a newline keep a buffer without one so -/
theorem writeBlock_clear (hclear : Clear bytes) : Leaves Clear Clear Tidy (writeBlock bytes : M σ Unit) := by
  refine .of_each fun buffer hstart =>
    (writeBlock_leaves bytes buffer).post (fun b hblocked => ?_) fun b hends => tidy_suffix (.inl hstart) hends
  cases hblocked with
  | same => exact hstart
  | emptied => exact clear_nil
  | added => exact fun hmem => (List.mem_append.1 hmem).elim hstart hclear
  | alone => exact hclear

/-- whole lines keep a tidy buffer tidy, as a newline is last either way -/
theorem writeBlock_tidy (hlast : bytes.getLast? = some newline) :
    Leaves Tidy Tidy Tidy (writeBlock bytes : M σ Unit) := by
  refine .of_each fun buffer hstart =>
    (writeBlock_leaves bytes buffer).post (fun b hblocked => ?_) fun b hends => tidy_suffix hstart hends
  cases hblocked with
  | same => exact hstart
  | emptied => exact tidy_nil
  | added =>
    right
    rw [List.getLast?_append, hlast, Option.some_or]
  | alone => exact .inr hlast

/-- **A write to a line-buffered handle.** Lines that are stranded in the buffer go first. -/
theorem writeLines_leaves (bytes : Bytes) : Leaves Tidy Clear Tidy (writeLines bytes : M σ Unit) := by
  refine .get_bind fun h _ hstart => ?_
  have hsame : ∀ b, b = h.buffer → Tidy b := by
    rintro b rfl
    exact hstart
  cases hsplit : splitLines bytes with
  | none =>
    have hclear := splitLines_none hsplit
    dsimp only
    split_ifs with hstranded
    · exact (drain_tidy.pre hsame).bind (writeBlock_clear hclear)
    · refine (writeBlock_clear hclear).pre ?_
      rintro b rfl
      exact hstart.resolve_right hstranded
  | some parts =>
    obtain ⟨lines, tail⟩ := parts
    obtain ⟨hlast, hclear⟩ := splitLines_some hsplit
    dsimp only
    split_ifs with hempty
    · have hpassed : Leaves Clear Clear Tidy (bypass lines : M σ Unit) :=
        (bypass_leaves lines Clear).post (fun _ hb => hb) fun _ hb => .inl hb
      refine (hpassed.pre ?_).bind (writeBlock_clear hclear)
      rintro b rfl
      rw [List.isEmpty_iff.1 hempty]
      exact clear_nil
    · exact ((writeBlock_tidy hlast).pre hsame).bind (drain_tidy.bind (writeBlock_clear hclear))

theorem writeBytes_leaves (bytes : Bytes) : Leaves Tidy Clear Tidy (writeBytes bytes : M σ Unit) := by
  refine .get_bind fun h hlines hstart => ?_
  rw [if_pos hlines]
  refine (writeLines_leaves bytes).pre ?_
  rintro b rfl
  exact hstart

theorem flush_leaves : Leaves Tidy Clear Tidy (flush : M σ Unit) := by
  refine drain_tidy.bind fun h hlines hclear => ?_
  cases Device.flush h.device with
  | mk answer device =>
    cases answer with
    | ok _ => exact ⟨hlines, hclear⟩
    | error e => exact ⟨hlines, .inl hclear⟩

/-! ## Requests -/

/-- something is written, be it an empty text -/
def Request.Writes : Request → Prop
  | write _ | writeLine _ => True
  | writeAll texts => texts ≠ []
  | flush => False

theorem writeAll_leaves (texts : List String) : Leaves Clear Clear Tidy (writeAll texts : M σ Unit) := by
  induction texts with
  | nil => exact fun h hlines hclear => ⟨hlines, hclear⟩
  | cons s texts ih => exact ((writeBytes_leaves (Text.encode s)).pre fun _ hb => .inl hb).bind ih

theorem Request.perform_leaves (r : Request) :
    Leaves Tidy (fun b => Tidy b ∧ (r.Writes → Clear b)) Tidy (r.perform : M σ Unit) := by
  have hboth : ∀ b, Clear b → Tidy b ∧ (r.Writes → Clear b) := fun b hclear => ⟨.inl hclear, fun _ => hclear⟩
  cases r with
  | write s => exact (writeBytes_leaves (Text.encode s)).post hboth fun _ hb => hb
  | writeLine s =>
    have htext : Leaves Tidy Tidy Tidy (writeBytes (Text.encode s) : M σ Unit) :=
      (writeBytes_leaves (Text.encode s)).post (fun _ => .inl) fun _ hb => hb
    exact htext.bind ((writeBytes_leaves [newline]).post hboth fun _ hb => hb)
  | writeAll texts =>
    cases texts with
    | nil => exact fun h hlines htidy => ⟨hlines, htidy, fun hwrites => absurd rfl hwrites⟩
    | cons s texts =>
      exact (writeBytes_leaves (Text.encode s)).bind ((writeAll_leaves texts).post hboth fun _ hb => hb)
  | flush => exact flush_leaves.post hboth fun _ hb => hb

/-- **One request** keeps the buffer tidy, and clears it of newlines if it is a write that succeeds. -/
theorem ask_tidy {h : Handle σ} (hlines : h.lineBuffered = true) (htidy : Tidy h.buffer) (r : Request) :
    (h.ask r).2.lineBuffered = true ∧ Tidy (h.ask r).2.buffer ∧
      (r.Writes → (h.ask r).1 = .ok () → Clear (h.ask r).2.buffer) := by
  have hleft := r.perform_leaves h hlines htidy
  unfold ask
  cases hr : r.perform h with
  | ok _ h' =>
    rw [hr] at hleft
    obtain ⟨hlines', htidy', hclear⟩ := hleft
    exact ⟨hlines', htidy', fun hwrites _ => hclear hwrites⟩
  | error e h' =>
    rw [hr] at hleft
    exact ⟨hleft.1, hleft.2, fun _ hok => by cases hok⟩

theorem serve_tidy (requests : List Request) {h : Handle σ} (hlines : h.lineBuffered = true) (htidy : Tidy h.buffer) :
    Tidy (serve requests h).2.buffer := by
  induction requests generalizing h with
  | nil => exact htidy
  | cons r rs ih =>
    obtain ⟨hlines', htidy', -⟩ := ask_tidy hlines htidy r
    exact ih hlines' htidy'

/-- after a write that succeeded there is no newline in the buffer, whatever went before -/
theorem serve_clear {requests : List Request} {h : Handle σ} (hlines : h.lineBuffered = true) (htidy : Tidy h.buffer)
    {r : Request} (hwrites : r.Writes) (hlast : (serve requests h).1.getLast? = some (r, .ok ())) :
    Clear (serve requests h).2.buffer := by
  induction requests generalizing h with
  | nil => cases hlast
  | cons r' rs ih =>
    obtain ⟨hlines', htidy', hclear⟩ := ask_tidy hlines htidy r'
    rw [serve_cons] at hlast ⊢
    cases rs with
    | nil =>
      obtain ⟨rfl, hok⟩ := Prod.mk.inj (Option.some.inj hlast)
      exact hclear hwrites hok
    | cons r'' rs =>
      rw [serve_cons, List.getLast?_cons_cons] at hlast
      exact ih hlines' htidy' hlast

end

/-- where the buffer has no newline, all lines of the account have been delivered -/
theorem lines_delivered {h : Handle σ} (hclear : Clear h.buffer) {line : Bytes}
    (hwritten : line ++ [newline] <+: h.delivered ++ h.buffer) : line ++ [newline] <+: h.delivered := by
  obtain ⟨rest, hsplit⟩ := hwritten
  rcases List.append_eq_append_iff.1 hsplit with ⟨more, hdelivered, -⟩ | ⟨waiting, hwhole, hbuffered⟩
  · exact ⟨more, hdelivered.symm⟩
  · -- bytes of the line that wait in the buffer would end with its newline
    rcases List.eq_nil_or_concat waiting with rfl | ⟨front, b, rfl⟩
    · exact ⟨[], by rw [hwhole, List.append_nil, List.append_nil]⟩
    · have hlast := congrArg List.getLast? hwhole
      rw [List.concat_eq_append, ← List.append_assoc, List.getLast?_concat, List.getLast?_concat] at hlast
      refine absurd ?_ hclear
      rw [hbuffered, List.concat_eq_append, ← Option.some.inj hlast]
      simp

/-- **Every line is passed on.** Whatever is asked of a new line-buffered handle and however its device behaves, the
buffer has no newline, or ends with one. After a write that succeeds it has none: all that was written up to the last
newline, be it by this write or by one that failed before, is with the device. -/
theorem lines_pass_on [Device σ] (name : String) (capacity : Nat) (device : σ) (requests : List Request) :
    let log := (serve requests (fresh name true capacity device)).1
    let h := (serve requests (fresh name true capacity device)).2
    (newline ∉ h.buffer ∨ h.buffer.getLast? = some newline) ∧
    ∀ r : Request, r.Writes → log.getLast? = some (r, .ok ()) →
      newline ∉ h.buffer ∧
      ∃ pieces, List.Forall₂ Entry.Covers log pieces ∧ h.delivered ++ h.buffer = pieces.flatten ∧
        ∀ line, line ++ [newline] <+: pieces.flatten → line ++ [newline] <+: h.delivered ∧
          ∀ accepted : σ → Bytes, Device.Records accepted →
            accepted device ++ line ++ [newline] <+: accepted h.device := by
  refine ⟨serve_tidy requests rfl tidy_nil, fun r hwrites hlast => ?_⟩
  have hclear := serve_clear (h := fresh name true capacity device) rfl tidy_nil hwrites hlast
  obtain ⟨pieces, hcovers, hadds⟩ := serve_adds requests (fresh name true capacity device)
  refine ⟨hclear, pieces, hcovers, hadds.account, fun line hbegins => ?_⟩
  have hwritten : line ++ [newline] <+: (serve requests (fresh name true capacity device)).2.account := by
    rw [hadds.account]
    exact hbegins
  have hreached := lines_delivered hclear hwritten
  refine ⟨hreached, fun accepted hrecords => ?_⟩
  rw [hadds.accepted rfl accepted hrecords, List.append_assoc]
  exact (List.prefix_append_right_inj _).2 hreached

/-- a device that refuses a number of times, and takes everything from then on -/
structure Moody where
  kept : Bytes
  refusals : Nat

instance : Device Moody where
  write bytes device :=
    match device with
    | ⟨kept, 0⟩ => (.ok bytes.length, ⟨kept ++ bytes, 0⟩)
    | ⟨kept, n + 1⟩ => (.error ⟨.wouldBlock, "later"⟩, ⟨kept, n⟩)
  flush device := (.ok (), device)
  patience _ := 0

theorem Moody.records : Device.Records Moody.kept := by
  refine ⟨fun bytes device n device' hwrite => ?_, fun bytes device e device' hwrite => ?_, fun _ => rfl⟩
  · obtain ⟨kept, _ | m⟩ := device <;> cases hwrite
    rw [List.take_length]
  · obtain ⟨kept, _ | m⟩ := device <;> cases hwrite
    rfl

/-- the line `ab` is stranded by a refusal, and goes out before `c`, which has no newline and waits -/
theorem lines_pass_on_stranded :
    (∃ e h, serve [.write "a", .writeLine "b"] (fresh "out" true 4 (⟨[], 1⟩ : Moody)) =
      ([(.write "a", .ok ()), (.writeLine "b", .error e)], h) ∧ h.buffer = [97, 98, 10] ∧ h.device.kept = []) ∧
    ∃ h, serve [.write "a", .writeLine "b", .write "c"] (fresh "out" true 4 (⟨[], 1⟩ : Moody)) =
        ([(.write "a", .ok ()), (.writeLine "b", .error ⟨.wouldBlock, "later"⟩), (.write "c", .ok ())], h) ∧
      newline ∉ h.buffer ∧ [97, 98, 10] <+: h.device.kept := by
  refine ⟨⟨_, _, rfl, rfl, rfl⟩, _, rfl, ?_⟩
  obtain ⟨-, hwritten⟩ := lines_pass_on "out" 4 (⟨[], 1⟩ : Moody) [.write "a", .writeLine "b", .write "c"]
  obtain ⟨hclear, pieces, hcovers, haccount, hpassed⟩ := hwritten (.write "c") trivial rfl
  refine ⟨hclear, (hpassed [97, 98] ?_).2 Moody.kept Moody.records⟩
  rw [← haccount]
  exact ⟨[99], rfl⟩

end ByNeed.Handle
