import Wbr1310.Httpd.BoundaryLine
import Wbr1310.Httpd.Chunking
import Wbr1310.Httpd.MultipartScan
import Wbr1310.Httpd.UploadResidue

/-!
# Uploads in chunks

A form with a file arrives in chunks: the header block in the buffer of the connection, with the
beginning of the body behind it, and the rest of the body in the block of `upload_file`. When
the body is complete, `file_ptr` and `file_length` denote the content of the file, and
`process_request` is called. A body that arrives as a whole with the header block is never
looked at.
-/

namespace Wbr1310.Httpd

open Lib Lib.Bytes List

/-- A connection: its input and the upload. -/
structure Receiver where
  input : InputPhase
  server : Mathopd

section

variable (env : MathopdEnv) (size numHeaders cn : ℕ) (malloc : Option (ℤ → UInt8)) (o : Outcome)
  (s : Receiver)

/-- What `read_multipart` finds when the header block is complete. -/
def headersEvent (p : Pool) (r : RequestRecord ℕ) : MathopdEvent :=
  .headers cn ((r.fields.multiBoundary.map (p.str size)).getD [])
    ((r.fields.named .contentLength).map fun i => ((number (p.str size i)).map Prod.fst).getD 0)
    (bytes p.mem p.middle (p.ending - p.middle))

/-- `run_rconnection`: with a boundary `read_multipart` is called, else `read_connection` and
`scan_request`. -/
def Receiver.runRconnection (r : ReadResult) : Receiver :=
  match s.input with
  | .multipart _ _ => { s with server := s.server.step env (.readable cn r malloc o) }
  | .reading _ _ =>
    let input := s.input.step size numHeaders r
    { input := input
      server := match input with
        | .reading _ _ => s.server
        | .closed => s.server.step env (.close cn)
        | .multipart p record => s.server.step env (headersEvent size cn p record)
        | .replied _ => s.server.step env (.request cn (.reply 0))
        | .processed _ _ => s.server.step env (.request cn o) }
  | .closed | .replied _ | .processed _ _ => s

def Receiver.runChunks (chunks : List Bytes) : Receiver :=
  Machine.run (fun s c => s.runRconnection env size numHeaders cn malloc o (.bytes c)) s chunks

end

/-- Chunks that bring a header block of `h` bytes and a body of `n` bytes, of which `t` were read.
The buffer holds what comes up to the end of the header block, and the body is not complete with
it. -/
def Brings (size h n : ℕ) : ℕ → List ℕ → Prop
  | t, [] => t = h + n
  | t, k :: ks => 0 < k ∧ (t < h → t + k ≤ size ∧ t + k < h + n) ∧ Brings size h n (t + k) ks

instance decidableBrings (size h n : ℕ) :
    (t : ℕ) → (ks : List ℕ) → Decidable (Brings size h n t ks)
  | t, [] => inferInstanceAs (Decidable (t = h + n))
  | t, k :: ks =>
    have := decidableBrings size h n (t + k) ks
    inferInstanceAs (Decidable (_ ∧ _ ∧ _))

theorem Brings.sum {size h n t : ℕ} {ks : List ℕ} (hks : Brings size h n t ks) :
    t + ks.sum = h + n := by
  induction ks generalizing t with
  | nil => exact hks
  | cons k ks ih =>
    rw [sum_cons, ← Nat.add_assoc]
    exact ih hks.2.2

/-- A request that uploads a form: the header block is complete and accepted, it has the boundary
of the form in its line Content-Type, and the length of the body. -/
structure UploadRequest (numHeaders : ℕ) (head block : Bytes) (r : RequestRecord ℕ)
    (f : UploadForm) : Prop where
  scanned : scan .start head = some (.done, [])
  accepted : acceptedRequest numHeaders head = some (block, r)
  boundary : ∃ front back, OneBoundary head front f.boundary back
  length : ∃ i rest, r.fields.named .contentLength = some i ∧
    number (str block i) = some ((f.body.length : ℤ), rest)
  form : f.WellFormed

/-- The first bytes of the body have arrived: they are kept with the request, or in the block. -/
structure Arriving (f : UploadForm) (cn : ℕ) (own : Bytes) (s : Mathopd) : Prop where
  running : s.running = true
  kept : ∃ m, s.connections cn = .multipart m ∧ m.boundary = f.boundary ∧
    ((s.upload.data = none ∧ s.upload.length = 0 ∧ m.inContentLength = some (f.body.length : ℤ) ∧
        m.body = own) ∨
      ∃ b, Holds s b own ∧ m.contentLength = f.body.length)

/-- `scan_multipart` has found the content of the file. -/
structure Found (f : UploadForm) (t : Mathopd) : Prop where
  filePtr : ∃ ptr, t.upload.filePtr = some ptr ∧
    bytes (t.blocks ptr.block).mem ptr.offset f.content.length = f.content
  fileLength : t.upload.fileLength = f.content.length

section Body

variable {env : MathopdEnv} {f : UploadForm} {cn b : ℕ} {own c : Bytes} {s : Mathopd}

theorem UploadForm.body_length_pos (f : UploadForm) : 1 ≤ f.body.length := by
  simp only [UploadForm.body, length_append, length_cons]
  omega

theorem Holds.found (h : Holds s b f.body) (hf : f.WellFormed)
    (hlimit : f.body.length < env.maxUploadsize) (hlt : f.body.length < 2 ^ 31) :
    Found f (s.scanData env f.boundary) := by
  have hpos := f.body_length_pos
  have hscan : s.upload.length ≠ 0 ∧ s.upload.length % 2 ^ 32 < env.maxUploadsize := by
    rw [h.length]
    omega
  have hmem : HoldsFrom (s.blocks b).mem f.body 0 := by
    rw [HoldsFrom, Nat.sub_zero, drop_zero]
    exact h.bytes_eq
  have hextracted := UploadForm.scanFrom_form (b := b) hf hmem
    (n := f.body.length + 1) (by omega) s.upload.filePtr s.upload.fileName s.upload.fileLength
  rw [Mathopd.scanData, h.data]
  simp only [if_pos hscan]
  rw [h.length, Int.toNat_natCast]
  refine ⟨⟨_, hextracted.filePtr, ?_⟩, hextracted.fileLength⟩
  simp only [Function.update_self]
  exact hextracted.mem.bytes_eq f.prefix_content

/-- What `read` is called with: the block holds what has arrived. -/
theorem Arriving.reading (h : Arriving f cn own s) (hlimit : f.body.length < env.maxUploadsize)
    (hlt : f.body.length < 2 ^ 31) (hown : own.length ≤ f.body.length) (fresh : ℤ → UInt8) :
    ∃ m s' m' b, s.connections cn = .multipart m ∧
      s.reading env cn m (some fresh) = some (s', m', b) ∧ Holds s' b own ∧
      s'.connections cn = .multipart m' ∧ m'.contentLength = f.body.length ∧
      m'.boundary = f.boundary ∧ s'.running = true := by
  obtain ⟨m, hm, hboundary, ⟨hdata, hlength, hcl, hbody⟩ | ⟨b, hholds, hcl⟩⟩ := h.kept
  · have hatoi : atoi (f.body.length : ℤ) = f.body.length := by
      rw [atoi]
      omega
    have hwithin : WithinLimit env f.body.length := ⟨by omega, by omega, by omega⟩
    have hread : s.reading env cn m (some fresh) =
        some ((s.allocate env f.body.length m.body fresh).setConnection cn
          (.multipart { m with contentLength := f.body.length }),
          { m with contentLength := f.body.length }, s.nextBlock) := by
      simp only [Mathopd.reading, hdata, hcl, hatoi]
    refine ⟨m, _, _, _, hm, hread, ?_, Function.update_self _ _ _, rfl, hboundary, ?_⟩
    · rw [hbody]
      exact (holds_allocate hwithin (by omega) hlength fresh).setConnection cn _
    · simp only [Mathopd.setConnection, Mathopd.allocate]
      split <;> exact h.running
  · have hread : s.reading env cn m (some fresh) = some (s, m, b) := by
      simp only [Mathopd.reading, hholds.data]
    exact ⟨m, s, m, b, hm, hread, hholds, hm, hcl, hboundary, h.running⟩

/-- An event on the connection that uploads is a `read` of the body. -/
theorem Arriving.step_eq (h : Arriving f cn own s) {m m' : Multipart} {s' : Mathopd}
    (hm : s.connections cn = .multipart m) {malloc : Option (ℤ → UInt8)}
    (hread : s.reading env cn m malloc = some (s', m', b)) (r : ReadResult) (o : Outcome) :
    s.step env (.readable cn r malloc o) = s'.readBody env cn m' b r o := by
  have hhandle : s.step env (.readable cn r malloc o) = s.readMultipart env cn m r malloc o := by
    simp only [Mathopd.step, h.running, if_true, Mathopd.handle, hm]
  rw [hhandle]
  rcases Mathopd.readMultipart_cases env s cn m r malloc o with
    ⟨s₁, m₁, b₁, hread₁, heq⟩ | ⟨hnone, -, -⟩
  · obtain ⟨rfl, rfl, rfl⟩ := Option.some.inj (hread.symm.trans hread₁)
    exact heq
  · cases hread.symm.trans hnone

/-- A read of the body: it is not complete, or its file is found. -/
theorem Arriving.read (h : Arriving f cn own s) (hf : f.WellFormed)
    (hlimit : f.body.length < env.maxUploadsize) (hlt : f.body.length < 2 ^ 31) (hc : c ≠ [])
    (hown : own ++ c <+: f.body) (fresh : ℤ → UInt8) (o : Outcome) :
    ((own ++ c).length < f.body.length →
        Arriving f cn (own ++ c) (s.step env (.readable cn (.bytes c) (some fresh) o))) ∧
      ((own ++ c).length = f.body.length →
        ∃ t m, s.step env (.readable cn (.bytes c) (some fresh) o) = t.finishMultipart env cn m o ∧
          Found f t) := by
  have hlen := hown.length_le
  rw [length_append] at hlen
  obtain ⟨m, s', m', b, hm, hread, hholds, hm', hcl, hboundary, hrun⟩ :=
    h.reading hlimit hlt (by omega) fresh
  have hwithin : WithinLimit env m'.contentLength := by
    rw [hcl]
    exact ⟨by omega, by omega, by omega⟩
  have hgot : s'.readGot env m' (.bytes c) = c := by
    rw [Mathopd.readGot, hholds.length, hwithin.readSpan_eq (by omega)]
    exact take_of_length_le (by simp only; omega)
  obtain ⟨hfilled, -⟩ := hholds.filled hwithin (by omega) (.bytes c)
  rw [hgot] at hfilled
  have hstep := h.step_eq hm hread (.bytes c) o
  have hcomplete : s'.Complete env m' b (.bytes c) ↔ f.body.length ≤ (own ++ c).length := by
    rw [Mathopd.Complete, hgot, hfilled.length, hcl, Int.ofNat_le]
    exact and_iff_right hc
  rw [hstep]
  rcases Mathopd.readBody_cases env s' cn m' b (.bytes c) o with
    ⟨hagain, -⟩ | ⟨-, hnil, -⟩ | ⟨-, hpart, hbody⟩ | ⟨hall, hbody⟩
  · cases hagain
  · exact absurd (hgot.symm.trans hnil) hc
  · rw [hbody]
    refine ⟨fun _ => ⟨hrun, m', hm', hboundary, .inr ⟨b, hfilled, hcl⟩⟩, fun heq => ?_⟩
    exact absurd (hcomplete.mpr heq.ge) hpart
  · rw [hbody]
    have hge := hcomplete.mp hall
    refine ⟨fun hlt' => by omega, fun heq => ?_⟩
    have hwhole : own ++ c = f.body := hown.eq_of_length heq
    rw [hwhole] at hfilled
    refine ⟨_, m', rfl, ?_⟩
    rw [hboundary]
    exact hfilled.found hf hlimit hlt

/-- The chunks of the body, of which the first `n` bytes have arrived. -/
theorem runChunks_arriving {size numHeaders h n : ℕ} {ks : List ℕ} {p : Pool} {r : RequestRecord ℕ}
    (harr : Arriving f cn (f.body.take n) s) (hf : f.WellFormed)
    (hlimit : f.body.length < env.maxUploadsize) (hlt : f.body.length < 2 ^ 31)
    (hn : n < f.body.length) (hks : Brings size h f.body.length (h + n) ks) (fresh : ℤ → UInt8)
    (o : Outcome) :
    ∃ t m, (Receiver.runChunks env size numHeaders cn (some fresh) o ⟨.multipart p r, s⟩
        (Stream.deliver (f.body.drop n) ks)).server = t.finishMultipart env cn m o ∧ Found f t := by
  induction ks generalizing n s with
  | nil =>
    have hall : h + n = h + f.body.length := hks
    omega
  | cons k ks ih =>
    have hsum := hks.sum
    obtain ⟨hk, -, hks⟩ := hks
    rw [sum_cons] at hsum
    have htake : f.body.take n ++ (f.body.drop n).take k = f.body.take (n + k) :=
      take_add.symm
    have hlen : (f.body.take (n + k)).length = n + k := by
      rw [length_take]
      omega
    have hc : (f.body.drop n).take k ≠ [] := by
      rw [← length_pos_iff, length_take, length_drop]
      omega
    obtain ⟨hpart, hwhole⟩ := harr.read hf hlimit hlt hc (htake ▸ take_prefix _ _) fresh o
    rw [htake, hlen] at hpart hwhole
    have hrun : Receiver.runChunks env size numHeaders cn (some fresh) o ⟨.multipart p r, s⟩
          (Stream.deliver (f.body.drop n) (k :: ks)) =
        Receiver.runChunks env size numHeaders cn (some fresh) o
          ⟨.multipart p r,
            s.step env (.readable cn (.bytes ((f.body.drop n).take k)) (some fresh) o)⟩
          (Stream.deliver (f.body.drop (n + k)) ks) := by
      rw [Stream.deliver, drop_drop]
      rfl
    rw [hrun]
    rcases Nat.lt_or_ge (n + k) f.body.length with hless | hge
    · exact ih (hpart hless) hless (by rwa [Nat.add_assoc] at hks)
    · -- the last chunk
      obtain rfl : ks = [] := by
        cases ks with
        | nil => rfl
        | cons k' ks =>
          have hk' := hks.1
          rw [sum_cons] at hsum
          omega
      exact hwhole (by omega)

end Body

section Head

variable {env : MathopdEnv} {size numHeaders cn t : ℕ} {head block : Bytes} {f : UploadForm}
  {r : RequestRecord ℕ} {p : Pool} {s : Mathopd}

/-- What the header block leaves for `read_multipart`. -/
theorem UploadRequest.headersEvent_eq (cn : ℕ) (hreq : UploadRequest numHeaders head block r f)
    (hp : InBody head.length block f.body false t p) (hhead : head.length ≤ size) :
    r.fields.multiBoundary.isSome = true ∧
      headersEvent size cn p r =
        .headers cn f.boundary (some (f.body.length : ℤ)) (f.body.take (t - head.length)) := by
  have hlast := (scan_last (by decide) hreq.scanned).2
  have haccepted := (processHeaders_eq hlast hreq.accepted false).1
  obtain ⟨front, back, hone⟩ := hreq.boundary
  obtain ⟨q, z, hq, hqz, hz, hzero, hboundary⟩ := hone.accepted hlast hreq.accepted
  obtain ⟨i, rest, hi, hnumber⟩ := hreq.length
  obtain ⟨z', hz', hzero', hpoints⟩ := haccepted.zero
  -- the strings of the block are still there
  have hstr : ∀ j z, j ≤ z → z < head.length → byteAt block z = 0 → p.str size j = str block j := by
    intro j z hjz hzlt hzero
    exact cut_bytes_eq_str hjz hzero (by omega) fun k _ hk => hp.block_eq k (by omega) nofun
  refine ⟨by rw [hq]; rfl, ?_⟩
  have htail : bytes p.mem p.middle (p.ending - p.middle) = f.body.take (t - head.length) := by
    rw [hp.middle, hp.ending, Nat.add_sub_cancel_left]
    exact hp.bytes_eq
  have hlength := hstr i z' (hpoints.named _ i hi).2 hz' hzero'
  rw [headersEvent, htail, hq, hi]
  simp only [Option.map_some, Option.getD_some, hstr q z hqz hz hzero, hboundary, hlength, hnumber]

/-- The server before the first byte of an upload. -/
structure Awaits (s : Mathopd) (cn : ℕ) : Prop where
  running : s.running = true
  reading : s.connections cn = .reading
  data : s.upload.data = none
  length : s.upload.length = 0

theorem Awaits.headers (hs : Awaits s cn) (own : Bytes) :
    Arriving f cn own (s.step env (.headers cn f.boundary (some (f.body.length : ℤ)) own)) := by
  have hstep : s.step env (.headers cn f.boundary (some (f.body.length : ℤ)) own) =
      s.setConnection cn (.multipart ⟨f.boundary, -1, some (f.body.length : ℤ), own⟩) := by
    simp only [Mathopd.step, hs.running, if_true, Mathopd.handle, hs.reading]
  rw [hstep]
  exact ⟨hs.running, _, Function.update_self _ _ _, rfl, .inl ⟨hs.data, hs.length, rfl, rfl⟩⟩

/-- The chunks of a request whose header block is not complete. -/
theorem runChunks_upload {ks : List ℕ} (hreq : UploadRequest numHeaders head block r f)
    (hhead : head.length ≤ size) (hlimit : f.body.length < env.maxUploadsize)
    (hlt : f.body.length < 2 ^ 31) (hs : Awaits s cn) (hp : InHead (head ++ f.body) t p)
    (ht : t < head.length) (hks : Brings size head.length f.body.length t ks) (fresh : ℤ → UInt8)
    (o : Outcome) :
    ∃ t' m, (Receiver.runChunks env size numHeaders cn (some fresh) o ⟨.reading p none, s⟩
        (Stream.deliver ((head ++ f.body).drop t) ks)).server = t'.finishMultipart env cn m o ∧
      Found f t' := by
  induction ks generalizing t p with
  | nil =>
    have hall : t = head.length + f.body.length := hks
    omega
  | cons k ks ih =>
    obtain ⟨hk, hroom, hks⟩ := hks
    obtain ⟨hsize, hmore⟩ := hroom ht
    have hlen : t + k ≤ (head ++ f.body).length := by
      rw [length_append]
      omega
    have hread := hp.read hk hsize hlen
    have hrun : Receiver.runChunks env size numHeaders cn (some fresh) o ⟨.reading p none, s⟩
          (Stream.deliver ((head ++ f.body).drop t) (k :: ks)) =
        Receiver.runChunks env size numHeaders cn (some fresh) o
          (Receiver.runRconnection env size numHeaders cn (some fresh) o ⟨.reading p none, s⟩
            (.bytes (((head ++ f.body).drop t).take k)))
          (Stream.deliver ((head ++ f.body).drop (t + k)) ks) := by
      rw [Stream.deliver, drop_drop]
      rfl
    have hstep : (InputPhase.reading p none).step size numHeaders
          (.bytes (((head ++ f.body).drop t).take k)) =
        (p.received (((head ++ f.body).drop t).take k)).scanRequest size numHeaders none := by
      rw [InputPhase.step, hread]
    rw [hrun, Receiver.runRconnection]
    simp only [hstep]
    rcases Nat.lt_or_ge (t + k) head.length with hpart | hcomplete
    · obtain ⟨p₁, hscan, hp₁⟩ := hp.part hreq.scanned hpart
      rw [hscan]
      exact ih hp₁ hpart hks
    · obtain ⟨p₁, hscan, hp₁, -, -⟩ :=
        hp.complete hreq.scanned hreq.accepted ht hcomplete hlen hsize
      rw [decide_eq_false (by omega)] at hp₁
      obtain ⟨hsome, hevent⟩ := hreq.headersEvent_eq cn hp₁ hhead
      have hdrop : (head ++ f.body).drop (t + k) = f.body.drop (t + k - head.length) := by
        rw [drop_append, drop_eq_nil_of_le hcomplete, nil_append]
      rw [← Nat.add_sub_cancel' hcomplete] at hks
      rw [hscan, if_pos hsome, hdrop]
      simp only [hevent]
      exact runChunks_arriving (hs.headers _) hreq.form hlimit hlt (by omega) hks fresh o

end Head

/-- An upload that arrives in chunks: when its last byte is read, `file_ptr` and `file_length`
denote the content of the file, and `process_request` is called with that. -/
theorem upload_found {env : MathopdEnv} {size numHeaders cn : ℕ} {head block : Bytes}
    {f : UploadForm} {r : RequestRecord ℕ} {s : Mathopd} {ks : List ℕ} (mem fresh : ℤ → UInt8)
    (o : Outcome) (hreq : UploadRequest numHeaders head block r f) (hhead : head.length ≤ size)
    (hlimit : f.body.length < env.maxUploadsize) (hlt : f.body.length < 2 ^ 31)
    (hs : Awaits s cn) (hks : Brings size head.length f.body.length 0 ks) :
    ∃ t m, (Receiver.runChunks env size numHeaders cn (some fresh) o
        ⟨.reading (.fresh mem) none, s⟩ (Stream.deliver (head ++ f.body) ks)).server =
          t.finishMultipart env cn m o ∧ Found f t := by
  have hpos := length_pos_iff.mpr (scan_last (by decide) hreq.scanned).1
  have hp : InHead (head ++ f.body) 0 (.fresh mem) := ⟨rfl, rfl, rfl, rfl, rfl⟩
  exact runChunks_upload hreq hhead hlimit hlt hs hp hpos hks fresh o

def smallForm : UploadForm where
  boundary := ascii ['#']
  preamble := []
  before := []
  lines := []
  params := ascii [';']
  name := ascii ['a']
  moreLines := []
  content := ascii ['h', 'i']
  after := []
  epilogue := []

def requestFront (version : Char) : Bytes :=
  ascii ['P', 'O', 'S', 'T', ' ', '/', 'a', ' ', 'H', 'T', 'T', 'P', '/', '1', '.', version, '\r',
    '\n']

def requestBack (digits : List Char) : Bytes :=
  contentLengthName ++ ascii ([':', ' '] ++ digits ++ ['\r', '\n', '\r', '\n'])

/-- A header block for a form with the boundary of the small one. -/
def smallHead (version : Char) (digits : List Char) : Bytes :=
  requestFront version ++ (typeLine smallForm.boundary ++ 13 :: 10 :: requestBack digits)

theorem smallForm_wellFormed : smallForm.WellFormed :=
  ⟨by decide, by decide +kernel, by decide +kernel, by decide +kernel⟩

theorem smallHead_oneBoundary : OneBoundary (smallHead '0' ['5', '0']) (requestFront '0')
    smallForm.boundary (requestBack ['5', '0']) :=
  ⟨rfl, by decide +kernel, by decide +kernel, by decide +kernel, by decide +kernel,
    by decide +kernel⟩

theorem smallForm_request :
    ∃ block r, UploadRequest 1 (smallHead '0' ['5', '0']) block r smallForm := by
  have hscan : scan .start (smallHead '0' ['5', '0']) = some (.done, []) := by decide +kernel
  have hcheck : ((acceptedRequest 1 (smallHead '0' ['5', '0'])).bind fun q =>
      (q.2.fields.named .contentLength).bind fun i => number (str q.1 i)) =
        some ((smallForm.body.length : ℤ), []) := by decide +kernel
  obtain ⟨⟨block, r⟩, hq, hnumber⟩ := Option.bind_eq_some_iff.mp hcheck
  obtain ⟨i, hi, hnumber⟩ := Option.bind_eq_some_iff.mp hnumber
  exact ⟨block, r, hscan, hq, ⟨_, _, smallHead_oneBoundary⟩, ⟨i, [], hi, hnumber⟩,
    smallForm_wellFormed⟩

/-- A server with a limit of 1000 bytes, after a connection was accepted. -/
def smallEnv : MathopdEnv := ⟨1000, fun _ _ => true⟩

def acceptedServer : Mathopd := Mathopd.start.step smallEnv (.accept 0)

def smallRun (size : ℕ) (malloc : Option (ℤ → UInt8)) (stream : Bytes) (ks : List ℕ) : Receiver :=
  Receiver.runChunks smallEnv size 1 0 malloc .other ⟨.reading (.fresh fun _ => 0) none,
    acceptedServer⟩ (Stream.deliver stream ks)

/-- The form arrives in four chunks; the second one brings the end of the header block and the
beginning of the body. -/
theorem upload_found_small :
    Brings 200 (smallHead '0' ['5', '0']).length smallForm.body.length 0 [50, 50, 20, 17] ∧
      ∃ t m, (smallRun 200 (some fun _ => 0) (smallHead '0' ['5', '0'] ++ smallForm.body)
          [50, 50, 20, 17]).server = t.finishMultipart smallEnv 0 m .other ∧
        Found smallForm t := by
  have hks : Brings 200 (smallHead '0' ['5', '0']).length smallForm.body.length 0
      [50, 50, 20, 17] := by decide +kernel
  obtain ⟨block, r, hreq⟩ := smallForm_request
  exact ⟨hks, upload_found _ _ .other hreq (by decide +kernel) (by decide +kernel)
    (by decide +kernel) ⟨rfl, rfl, rfl, rfl⟩ hks⟩

/-- The connection is closed before the request is complete, or the request is answered with a
status. -/
def InputPhase.status : InputPhase → Option ℕ
  | .closed => some 0
  | .replied status => some status
  | .reading _ _ | .multipart _ _ | .processed _ _ => none

def unquotedBody : Bytes :=
  smallForm.encodePart (contentDisposition ++ ascii [';'] ++ filenameIs ++ smallForm.name ++ crlf ++
    crlf ++ smallForm.content) ++ smallForm.delimiter ++ [45, 45]

/-- The small form with a name of a file behind its last delimiter. -/
def epilogueForm : UploadForm :=
  { smallForm with
    epilogue := contentDisposition ++ filenameIs ++ ascii ['"', '"'] ++ crlf ++ crlf }

/-- The file is not found when the header block does not fit into the buffer, when it is answered
with a status, when the name is not quoted or stands in the epilogue as well, when no block is
allocated, and the last byte is never read when the length is not an `int`. -/
theorem upload_not_found :
    (smallRun 80 (some fun _ => 0) (smallHead '0' ['5', '0'] ++ smallForm.body)
        [50, 30, 1]).input.status = some 0 ∧
      (smallRun 200 (some fun _ => 0) (smallHead '1' ['5', '0'] ++ smallForm.body)
        [50, 50]).input.status = some 400 ∧
      (smallRun 200 (some fun _ => 0) (smallHead '0' ['4', '8'] ++ unquotedBody)
        [50, 50, 35]).server.upload.filePtr = none ∧
      (smallRun 200 (some fun _ => 0) (smallHead '0' ['8', '4'] ++ epilogueForm.body)
        [50, 50, 71]).server.upload.filePtr = some ⟨0, 84⟩ ∧ epilogueForm.contentStart = 41 ∧
      (smallRun 200 none (smallHead '0' ['5', '0'] ++ smallForm.body)
        [50, 50, 37]).server.upload.filePtr = none ∧
      (readSpan ⟨2 ^ 32 - 1, fun _ _ => true⟩ (atoi (2 ^ 31)) (2 ^ 31 - 1)).length = 0 := by
  refine ⟨?_, ?_, ?_, ?_, ?_, ?_, ?_⟩
  all_goals decide +kernel

end Wbr1310.Httpd
