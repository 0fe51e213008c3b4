/-
Captured text is never torn.

A buffer is counted in bytes, and its capacity may be smaller than a character. Still, what is in memory is a text at any
time: a willing device takes a piece as a whole, and pieces are cut behind a newline only, which is a character of its
own.
- `splitLines_whole`: the two pieces of a text that is cut behind its last newline are texts.
- `Keeps`: an operation keeps texts whole, those delivered and those in the buffer; one operation after another.
- `serve_intact`: so does every sequence of requests.
-/
import ByNeed.Proofs.Io.Captured
import ByNeed.Proofs.Io.Newlines
import ByNeed.Proofs.Text.Spelling

namespace ByNeed

theorem Target.memory_willing_alone : Device.Willing Target.memory := ⟨fun _ => rfl, rfl⟩

namespace Handle

variable {σ : Type}

/-! ## Texts -/

/-- the bytes are those of a text -/
def Whole (bytes : Bytes) : Prop := ∃ s, Text.encode s = bytes

theorem whole_nil : Whole [] := ⟨"", rfl⟩

theorem whole_encode (s : String) : Whole (Text.encode s) := ⟨s, rfl⟩

theorem whole_newline : Whole [newline] := ⟨"\n", rfl⟩

theorem Whole.append {first second : Bytes} (hleft : Whole first) (hright : Whole second) :
    Whole (first ++ second) := by
  obtain ⟨s, rfl⟩ := hleft
  obtain ⟨t, rfl⟩ := hright
  exact ⟨s ++ t, Text.encode_append s t⟩

/-- a text can be cut behind a newline -/
theorem splitLines_whole {bytes lines tail : Bytes} (hwhole : Whole bytes)
    (hsplit : splitLines bytes = some (lines, tail)) : Whole lines ∧ Whole tail := by
  obtain ⟨s, hs⟩ := hwhole
  obtain ⟨hlast, -⟩ := splitLines_some hsplit
  obtain ⟨front, rfl⟩ := List.getLast?_eq_some_iff.1 hlast
  rw [← splitLines_append hsplit, List.append_assoc] at hs
  obtain ⟨t, u, hfirst, hsecond⟩ := Text.encode_split (by decide) hs
  exact ⟨⟨t, hfirst⟩, ⟨u, hsecond⟩⟩

/-! ## Operations -/

/-- what was delivered is a text, and what is buffered is one -/
structure Intact (h : Handle σ) : Prop where
  delivered : Whole h.delivered
  buffer : Whole h.buffer

variable [Device σ] {x y : M σ Unit} {bytes : Bytes}

/-- with a willing device the operation keeps texts whole -/
def Keeps (x : M σ Unit) : Prop :=
  ∀ h h', Device.Willing h.device → Intact h → x h = .ok () h' → Intact h'

theorem Keeps.bind (hsucceeds : Succeeds x) (hfirst : Keeps x) (hsecond : Keeps y) : Keeps (x >>= fun _ => y) := by
  intro h h' hwilling hintact hended
  obtain ⟨h₁, hx, hdevice⟩ := hsucceeds h hwilling
  rw [bind_ok hx] at hended
  exact hsecond h₁ h' (by rwa [hdevice]) (hfirst h h₁ hwilling hintact hx) hended

theorem Keeps.get_bind {f : Handle σ → M σ Unit} (heach : ∀ h, Keeps (f h)) : Keeps (get >>= f) :=
  fun h h' hwilling hintact hended => heach h h h' hwilling hintact hended

theorem drain_keeps : Keeps (drain : M σ Unit) := by
  intro h h' hwilling hintact hended
  rw [drain_eq, offer_willing hwilling] at hended
  cases hended
  exact ⟨hintact.delivered.append hintact.buffer, whole_nil⟩

theorem bypass_keeps (hwhole : Whole bytes) : Keeps (bypass bytes : M σ Unit) := by
  intro h h' hwilling hintact hended
  rw [bypass_eq, offer_willing hwilling] at hended
  cases hended
  exact ⟨hintact.delivered.append hwhole, hintact.buffer⟩

theorem append_keeps (hwhole : Whole bytes) : Keeps (append bytes : M σ Unit) := by
  intro h h' _ hintact hended
  cases hended
  exact ⟨hintact.delivered, hintact.buffer.append hwhole⟩

theorem writeBlock_keeps (hwhole : Whole bytes) : Keeps (writeBlock bytes : M σ Unit) := by
  refine .get_bind fun h => ?_
  dsimp only
  split_ifs
  · exact append_keeps hwhole
  · exact drain_keeps.bind drain_succeeds (bypass_keeps hwhole)
  · exact drain_keeps.bind drain_succeeds (append_keeps hwhole)
  · exact bypass_keeps hwhole
  · exact append_keeps hwhole

theorem writeLines_keeps (hwhole : Whole bytes) : Keeps (writeLines bytes : M σ Unit) := by
  refine .get_bind fun h => ?_
  cases hsplit : splitLines bytes with
  | none =>
    dsimp only
    split_ifs
    · exact drain_keeps.bind drain_succeeds (writeBlock_keeps hwhole)
    · exact writeBlock_keeps hwhole
  | some parts =>
    obtain ⟨lines, tail⟩ := parts
    obtain ⟨hfirst, hsecond⟩ := splitLines_whole hwhole hsplit
    have hrest := writeBlock_keeps (σ := σ) hsecond
    dsimp only
    split_ifs
    · exact (bypass_keeps hfirst).bind (bypass_succeeds lines) hrest
    · exact (writeBlock_keeps hfirst).bind (writeBlock_succeeds lines) (drain_keeps.bind drain_succeeds hrest)

theorem writeBytes_keeps (hwhole : Whole bytes) : Keeps (writeBytes bytes : M σ Unit) := by
  refine .get_bind fun h => ?_
  split_ifs
  · exact writeLines_keeps hwhole
  · exact writeBlock_keeps hwhole

theorem writeAll_keeps (texts : List String) : Keeps (writeAll texts : M σ Unit) := by
  induction texts with
  | nil =>
    intro h h' _ hintact hended
    cases hended
    exact hintact
  | cons s texts ih => exact (writeBytes_keeps (whole_encode s)).bind (writeBytes_succeeds _) ih

theorem flush_keeps : Keeps (flush : M σ Unit) := by
  refine drain_keeps.bind drain_succeeds fun h h' hwilling hintact hended => ?_
  simp only [hwilling.flush] at hended
  cases hended
  exact hintact

/-! ## Requests -/

theorem Request.perform_keeps (r : Request) : Keeps (r.perform : M σ Unit) := by
  cases r with
  | write s => exact writeBytes_keeps (whole_encode s)
  | writeLine s =>
    exact (writeBytes_keeps (whole_encode s)).bind (writeBytes_succeeds _) (writeBytes_keeps whole_newline)
  | writeAll texts => exact writeAll_keeps texts
  | flush => exact flush_keeps

def Request.text : Request → String
  | write s => s
  | writeLine s => s ++ "\n"
  | writeAll texts => String.join texts
  | flush => ""

def written (requests : List Request) : String := String.join (requests.map Request.text)

theorem Request.encode_text (r : Request) : Text.encode r.text = r.bytes := by
  cases r with
  | write s => rfl
  | writeLine s => exact Text.encode_append s "\n"
  | writeAll texts => exact Text.encode_join texts
  | flush => rfl

/-- **One request** succeeds, adds its text and keeps texts whole. -/
theorem ask_intact {h : Handle σ} (hwilling : Device.Willing h.device) (hintact : Intact h) (r : Request) :
    (h.ask r).1 = .ok () ∧ (h.ask r).2.device = h.device ∧ Intact (h.ask r).2 ∧
      (h.ask r).2.account = h.account ++ Text.encode r.text := by
  obtain ⟨hok, hdevice, haccount⟩ := ask_willing hwilling r
  refine ⟨hok, hdevice, ?_, by rw [haccount, r.encode_text]⟩
  obtain ⟨h', hperformed, -⟩ := r.perform_succeeds h hwilling
  have hkept := r.perform_keeps h h' hwilling hintact hperformed
  simpa only [ask, hperformed] using hkept

theorem serve_intact (requests : List Request) {h : Handle σ} (hwilling : Device.Willing h.device)
    (hintact : Intact h) :
    (∀ entry ∈ (serve requests h).1, entry.2 = .ok ()) ∧ (serve requests h).2.device = h.device ∧
      Intact (serve requests h).2 ∧ (serve requests h).2.account = h.account ++ Text.encode (written requests) := by
  induction requests generalizing h with
  | nil => exact ⟨List.forall_mem_nil _, rfl, hintact, (List.append_nil _).symm⟩
  | cons r rs ih =>
    obtain ⟨hok, hdevice, hintact', haccount⟩ := ask_intact hwilling hintact r
    obtain ⟨hoks, hdevice', hintact'', haccount'⟩ := ih (by rwa [hdevice]) hintact'
    rw [serve_cons]
    refine ⟨List.forall_mem_cons.2 ⟨hok, hoks⟩, hdevice'.trans hdevice, hintact'', ?_⟩
    rw [haccount', haccount, List.append_assoc, ← Text.encode_append]
    rw [written, written, List.map_cons, String.join_cons]

omit [Device σ] in
/-- where texts are whole, what has been delivered is the beginning of what was written -/
theorem Intact.beginning {h : Handle σ} (hintact : Intact h) {text : String} (haccount : h.account = Text.encode text) :
    ∃ begun waiting, h.delivered = Text.encode begun ∧ h.buffer = Text.encode waiting ∧ begun ++ waiting = text := by
  obtain ⟨begun, hdelivered⟩ := hintact.delivered
  obtain ⟨waiting, hbuffered⟩ := hintact.buffer
  refine ⟨begun, waiting, hdelivered.symm, hbuffered.symm, Text.encode_injective ?_⟩
  rw [Text.encode_append, hdelivered, hbuffered]
  exact haccount

/-- the last entry of a log without failures is the last request, answered -/
theorem serve_last_ok {requests : List Request} {h : Handle σ} {r : Request}
    (hoks : ∀ entry ∈ (serve requests h).1, entry.2 = .ok ()) (hlast : requests.getLast? = some r) :
    (serve requests h).1.getLast? = some (r, .ok ()) := by
  rw [← serve_requests requests h, List.getLast?_map] at hlast
  obtain ⟨⟨r', answer⟩, hsent, rfl⟩ := Option.map_eq_some_iff.1 hlast
  obtain rfl : answer = .ok () := hoks _ (List.mem_of_getLast? hsent)
  exact hsent

/-- **Captured text is never torn.** Output is kept in memory, buffered in either way and with any capacity. Whatever
texts are written, in pieces or not, and whenever the handle is flushed, no request fails. At every point, the bytes in
memory are valid, and the text that is read from them leniently is exactly the beginning of what was written; after a
flush it is all of it. -/
theorem captured_whole (name : String) (lineBuffered : Bool) (capacity : Nat) (requests : List Request) :
    let log := (serve requests (fresh name lineBuffered capacity Target.memory)).1
    let h := (serve requests (fresh name lineBuffered capacity Target.memory)).2
    (∀ entry ∈ log, entry.2 = .ok ()) ∧
    ∃ begun waiting, Text.decode? h.delivered = some begun ∧ h.captured? = some begun ∧
      begun ++ waiting = written requests ∧ (requests.getLast? = some .flush → begun = written requests) := by
  have hwilling := Target.memory_willing_alone
  obtain ⟨hoks, hdevice, hintact, haccount⟩ :=
    serve_intact requests (h := fresh name lineBuffered capacity Target.memory) hwilling ⟨whole_nil, whole_nil⟩
  obtain ⟨begun, waiting, hdelivered, hbuffered, hsplit⟩ := hintact.beginning haccount
  refine ⟨hoks, begun, waiting, Text.decode?_eq_some_iff.2 hdelivered.symm, ?_, hsplit, fun hlast => ?_⟩
  · rw [captured?, hdevice, hdelivered, Text.decodeLossy_encode]
    rfl
  · have hsent : (serve requests (fresh name lineBuffered capacity Target.memory)).1.getLast? = some (.flush, .ok ()) :=
      serve_last_ok hoks hlast
    have hempty := serve_flushed hsent
    rw [hbuffered] at hempty
    obtain rfl : waiting = "" := Text.encode_injective hempty
    rw [← hsplit, String.append_empty]

/-- characters of two, three and four bytes, written in pieces, go through a buffer of three bytes: before the flush the
last one is missing, and after it none is -/
theorem captured_whole_narrow :
    let requests : List Request := [.writeAll ["é", "€", "\n😀"], .write "ü", .flush]
    let h := (serve requests (fresh "stdout" true 3 Target.memory)).2
    (serve (requests.take 2) (fresh "stdout" true 3 Target.memory)).2.captured? = some "é€\n😀" ∧
    Text.decode? h.delivered = some "é€\n😀ü" ∧ h.captured? = some "é€\n😀ü" := by
  intro requests h
  refine ⟨by decide +kernel, ?_⟩
  obtain ⟨-, begun, waiting, hvalid, hcaptured, -, hwhole⟩ := captured_whole "stdout" true 3 requests
  have hall : written requests = "é€\n😀ü" := by decide +kernel
  rw [hwhole rfl, hall] at hvalid hcaptured
  exact ⟨hvalid, hcaptured⟩

end Handle

end ByNeed
