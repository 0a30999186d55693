import Wbr1310.Httpd.CgiEnv
import Wbr1310.Httpd.HeaderPointers
import Wbr1310.Lib.Stream

/-!
# Requests in chunks

A POST request without a boundary arrives in chunks, with other bytes behind it. The record of
the request points into the buffer, and so does its body. If header block and body do not fit into
the buffer together, the body is moved over the header block; and what a chunk brings behind
the body is taken for a part of it.
-/

namespace Wbr1310.Httpd

open Lib Lib.Bytes List Option

/-- What `read_connection` asks for when `t` bytes of a request with a header block of `h` bytes
were read: the rest of the buffer, which holds the body alone when it was full. -/
def room (size h t : ℕ) : ℕ := if t < size then size - t else size - (t - h)

/-- Chunks that complete a request of `h + n` bytes, of which `t` were read: each brings
something, and not more than is asked for. -/
def Completes (size h n : ℕ) : ℕ → List ℕ → Prop
  | t, [] => h + n ≤ t
  | t, k :: ks => t < h + n ∧ 0 < k ∧ k ≤ room size h t ∧ Completes size h n (t + k) ks

variable {size : ℕ} {st : ScanPhase}

theorem Completes.le_sum {h n t : ℕ} {ks : List ℕ} (hks : Completes size h n t ks) :
    h + n ≤ t + ks.sum := by
  induction ks generalizing t with
  | nil => exact hks
  | cons k ks ih =>
    have hrest := ih hks.2.2.2
    rw [sum_cons]
    omega

instance decidableCompletes (size h n : ℕ) :
    (t : ℕ) → (ks : List ℕ) → Decidable (Completes size h n t ks)
  | t, [] => inferInstanceAs (Decidable (h + n ≤ t))
  | t, k :: ks =>
    have := decidableCompletes size h n (t + k) ks
    inferInstanceAs (Decidable (_ ∧ _ ∧ _ ∧ _))

def readChunks (size numHeaders : ℕ) (ph : InputPhase) (chunks : List Bytes) : InputPhase :=
  Machine.run (fun ph c => ph.step size numHeaders (.bytes c)) ph chunks

/-- A POST request without a boundary, with a body of `n` bytes: what `process_headers` makes of
its header block. -/
structure PostRequest (numHeaders : ℕ) (head : Bytes) (n : ℕ) (block : Bytes)
    (r : RequestRecord ℕ) : Prop where
  scanned : scan .start head = some (.done, [])
  accepted : acceptedRequest numHeaders head = some (block, r)
  post : r.method = .post
  boundary : r.fields.multiBoundary = none
  length : r.inMblen = n

theorem scan_done (s : Bytes) : scan .done s = some (.done, s) := by
  cases s with
  | nil => rfl
  | cons c s => exact if_pos rfl

theorem scan_append {st' : ScanPhase} {xs : Bytes} (h : scan st xs = some (st', [])) (ys : Bytes) :
    scan st (xs ++ ys) = scan st' ys := by
  induction xs generalizing st with
  | nil =>
    obtain ⟨rfl, -⟩ := Prod.mk.inj (some.inj h)
    rfl
  | cons c xs ih =>
    simp only [scan, cons_append] at h ⊢
    split at h
    · exact nomatch (Prod.mk.inj (some.inj h)).2
    · next hst =>
      rw [if_neg hst]
      split at h
      · cases h
      · next hc =>
        rw [if_neg hc]
        exact ih h

theorem scan_part {xs ys : Bytes} (hys : ys ≠ []) (h : scan st (xs ++ ys) = some (.done, [])) :
    ∃ st', scan st xs = some (st', []) ∧ st' ≠ .done ∧ scan st' ys = some (.done, []) := by
  induction xs generalizing st with
  | nil =>
    refine ⟨st, rfl, ?_, h⟩
    rintro rfl
    rw [nil_append, scan_done] at h
    exact hys (Prod.mk.inj (some.inj h)).2
  | cons c xs ih =>
    simp only [scan, cons_append] at h ⊢
    split at h
    · exact nomatch (Prod.mk.inj (some.inj h)).2
    · next hst =>
      split at h
      · cases h
      · next hc =>
        obtain ⟨st', hxs, hne, hys'⟩ := ih h
        exact ⟨st', by rw [if_neg hst, if_neg hc, hxs], hne, hys'⟩

theorem eq_of_scanChar {c : UInt8} (hst : st ≠ .done) (h : scanChar st c = .done) : c = 10 := by
  cases st with
  | done => exact absurd rfl hst
  | _ =>
    simp only [scanChar] at h
    split_ifs at h <;> assumption

theorem scan_last (hst : st ≠ .done) {s : Bytes} (h : scan st s = some (.done, [])) :
    s ≠ [] ∧ byteAt s (s.length - 1) = 10 := by
  induction s generalizing st with
  | nil => exact absurd (Prod.mk.inj (some.inj h)).1 hst
  | cons c s ih =>
    refine ⟨cons_ne_nil c s, ?_⟩
    rw [scan, if_neg hst] at h
    split at h
    · cases h
    · by_cases hnext : scanChar st c = .done
      · rw [hnext, scan_done] at h
        obtain rfl := (Prod.mk.inj (some.inj h)).2
        exact eq_of_scanChar hst hnext
      · obtain ⟨hne, hlast⟩ := ih hnext h
        have hpos := length_pos_iff.mpr hne
        rw [byteAt] at hlast ⊢
        rw [length_cons, Nat.add_sub_cancel, ← Nat.sub_add_cancel hpos, getD_cons_succ]
        exact hlast

def Pool.received (p : Pool) (c : Bytes) : Pool :=
  { p with
    mem := Function.update (writeMem p.mem p.ending c) (p.ending + c.length) 0
    ending := p.ending + c.length }

theorem readConnection_bytes {p p' : Pool} {c : Bytes} (hroom : makeRoom size p = some p')
    (hc : c ≠ []) (hlen : p'.ending + c.length ≤ size) :
    readConnection size p (.bytes c) = some (p'.received c) := by
  rw [readConnection, hroom]
  simp only
  rw [take_of_length_le (by omega), if_neg hc]
  rfl

section Received

variable (p : Pool) (c : Bytes)

theorem bytes_received {i n : ℕ} (hn : i + n = p.ending) :
    bytes (p.received c).mem i (n + c.length) = bytes p.mem i n ++ c := by
  have hbytes : bytes (p.received c).mem i (n + c.length) =
      bytes (writeMem p.mem p.ending c) i (n + c.length) := by
    refine bytes_congr fun k _ hk => Function.update_of_ne ?_ _ _
    omega
  have hend : (i : ℤ) + n = p.ending := by exact_mod_cast hn
  rw [hbytes, bytes_add, hend, bytes_writeMem, bytes_writeMem_of_le _ _ (by omega)]

theorem received_ending : (p.received c).mem (p.received c).ending = 0 := by
  simp only [Pool.received, Nat.cast_add, Function.update_self]

theorem received_mem {k : ℤ} (hk : k < p.ending ∨ p.ending + c.length < k) :
    (p.received c).mem k = p.mem k := by
  have hne : k ≠ p.ending + c.length := by omega
  simp only [Pool.received, Function.update_of_ne hne]
  exact if_neg (by omega)

end Received

/-- The first `t` bytes of the stream were read, and the header block is not complete. -/
structure InHead (stream : Bytes) (t : ℕ) (p : Pool) : Prop where
  start : p.start = 0
  middle : p.middle = t
  ending : p.ending = t
  bytes_eq : bytes p.mem 0 t = stream.take t
  scanned : scan .start (stream.take t) = some (p.state, [])

/-- The header block is complete, and what follows it is behind it, or at the floor of the buffer
if it was moved. The bytes of the block are there as `process_headers` has left them, unless
they were overwritten. -/
structure InBody (h : ℕ) (block data : Bytes) (moved : Bool) (t : ℕ) (p : Pool) : Prop where
  le : h ≤ t
  state : p.state = .done
  start : p.start = if moved then 0 else h
  middle : p.middle = p.start
  ending : p.ending = p.start + (t - h)
  bytes_eq : bytes p.mem p.start (t - h) = data.take (t - h)
  block_eq : ∀ i : ℕ, i < h → (moved = true → t - h < i) → p.mem i = byteAt block i

section Step

variable {size numHeaders h n t k : ℕ} {block data : Bytes} {moved : Bool} {p : Pool}
  {r : RequestRecord ℕ}

theorem InBody.received (hp : InBody h block data moved t p) (hk : t - h + k ≤ data.length) :
    InBody h block data moved (t + k) (p.received ((data.drop (t - h)).take k)) := by
  have hlen : ((data.drop (t - h)).take k).length = k := by
    rw [length_take, length_drop]
    omega
  have hle := hp.le
  have hsum : t + k - h = t - h + k := by omega
  constructor
  · omega
  · exact hp.state
  · exact hp.start
  · exact hp.middle
  · change p.ending + _ = p.start + _
    rw [hlen, hp.ending]
    omega
  · have hbytes := bytes_received p ((data.drop (t - h)).take k) hp.ending.symm
    rw [hlen, hp.bytes_eq, ← take_add] at hbytes
    rw [hsum]
    exact hbytes
  · intro i hi hmoved
    have hstart := hp.start
    have hending := hp.ending
    rw [received_mem]
    · exact hp.block_eq i hi fun hm => by have := hmoved hm; omega
    · rw [hlen]
      cases moved with
      | true =>
        have := hmoved rfl
        simp only [if_true] at hstart
        omega
      | false =>
        simp only [Bool.false_eq_true, if_false] at hstart
        omega

theorem InBody.move (hp : InBody h block data false t p) (hsize : t = size) (hh : 0 < h) :
    ∃ p', makeRoom size p = some p' ∧ InBody h block data true t p' := by
  have hstart : p.start = h := hp.start
  have hle := hp.le
  have hending : p.ending = size := by
    rw [hp.ending, hstart]
    omega
  have hroom : makeRoom size p = some
      { p with
        mem := writeMem p.mem 0 (bytes p.mem p.start (p.ending - p.start))
        start := 0
        middle := p.middle - p.start
        ending := p.ending - p.start } := by
    rw [makeRoom, if_neg (by omega), if_neg (by omega)]
  have hmoved : p.ending - p.start = t - h := by omega
  refine ⟨_, hroom, hle, hp.state, rfl, ?_, ?_, ?_, fun i hi hlt => ?_⟩
  · change p.middle - p.start = 0
    rw [hp.middle, Nat.sub_self]
  · change p.ending - p.start = 0 + (t - h)
    omega
  · have hdata := bytes_writeMem p.mem 0 (bytes p.mem p.start (t - h))
    rw [length_bytes] at hdata
    change bytes (writeMem p.mem 0 (bytes p.mem p.start (p.ending - p.start))) ((0 : ℕ) : ℤ)
      (t - h) = _
    rw [hmoved, Nat.cast_zero, hdata, hp.bytes_eq]
  · have hlt' := hlt rfl
    have hout : ¬ (0 ≤ (i : ℤ) ∧ (i : ℤ) < 0 + (bytes p.mem p.start
        (p.ending - p.start)).length) := by
      rw [length_bytes]
      omega
    exact (if_neg hout).trans (hp.block_eq i hi nofun)

/-- A read of a part of the body, which is moved if the buffer is full. -/
theorem InBody.read (hp : InBody h block data (decide (size < t)) t p) (hh : 0 < h) (hk : 0 < k)
    (hroom : k ≤ room size h t) (hdata : t - h + k ≤ data.length) :
    ∃ p', readConnection size p (.bytes ((data.drop (t - h)).take k)) = some p' ∧
      InBody h block data (decide (size < t + k)) (t + k) p' ∧ p'.mem p'.ending = 0 ∧
      p'.ending ≤ size := by
  have hlen : ((data.drop (t - h)).take k).length = k := by
    rw [length_take, length_drop]
    omega
  have hne : (data.drop (t - h)).take k ≠ [] := by
    rw [← length_pos_iff, hlen]
    exact hk
  -- the pool that is read into, moved or not
  have hread : ∀ p₁ moved, makeRoom size p = some p₁ → InBody h block data moved t p₁ →
      moved = decide (size < t + k) → p₁.ending + k ≤ size →
      ∃ p', readConnection size p (.bytes ((data.drop (t - h)).take k)) = some p' ∧
        InBody h block data (decide (size < t + k)) (t + k) p' ∧ p'.mem p'.ending = 0 ∧
        p'.ending ≤ size := by
    intro p₁ moved hmake hp₁ hmoved hle
    refine ⟨_, readConnection_bytes hmake hne (by rwa [hlen]), ?_, received_ending p₁ _, ?_⟩
    · rw [← hmoved]
      exact hp₁.received hdata
    · change p₁.ending + _ ≤ size
      rwa [hlen]
  have hle := hp.le
  have hending := hp.ending
  have hstart := hp.start
  rw [room] at hroom
  rcases lt_trichotomy t size with hlt | heq | hgt
  · rw [if_pos hlt] at hroom
    rw [decide_eq_false (by omega)] at hp
    simp only [show ¬ size < t by omega, decide_false, Bool.false_eq_true, if_false] at hstart
    exact hread p false (if_pos (by omega)) hp (decide_eq_false (by omega)).symm (by omega)
  · rw [if_neg (by omega)] at hroom
    rw [decide_eq_false (by omega)] at hp
    obtain ⟨p₁, hmake, hp₁⟩ := hp.move heq hh
    have hending₁ : p₁.ending = t - h := by rw [hp₁.ending, hp₁.start, if_pos rfl, Nat.zero_add]
    exact hread p₁ true hmake hp₁ (decide_eq_true (by omega)).symm (by omega)
  · rw [if_neg (by omega)] at hroom
    rw [decide_eq_true hgt] at hp
    simp only [hgt, decide_true, if_true] at hstart
    exact hread p true (if_pos (by omega)) hp (decide_eq_true (by omega)).symm (by omega)

theorem InBody.str_middle (hp : InBody h block data moved t p) (hz : p.mem p.ending = 0)
    (hle : p.ending ≤ size) : p.str size p.middle = Buffer.cut (data.take (t - h)) := by
  have hending := hp.ending
  have hzero : p.mem ((p.start : ℤ) + (t - h : ℕ)) = 0 := by
    rw [← Nat.cast_add, ← hending]
    exact hz
  rw [Pool.str, hp.middle, cut_bytes_of_zero hzero (by omega), hp.bytes_eq]

theorem scanRequest_done (hstate : p.state = .done) (hle : p.middle ≤ p.ending) :
    p.scanRequest size numHeaders (some r) = awaitBody size p r := by
  have hsame : { p with
      state := .done
      middle := p.ending - (bytes p.mem p.middle (p.ending - p.middle)).length } = p := by
    rw [length_bytes, ← hstate, Nat.sub_sub_self hle]
  rw [Pool.scanRequest, hstate, scan_done]
  simp only [if_true]
  rw [hsame]
  rfl

end Step

section Body

variable {size numHeaders h t : ℕ} {block body rest : Bytes} {p : Pool} {r : RequestRecord ℕ}
  (hlength : r.inMblen = body.length) (hbody : 0 ∉ body)
include hlength hbody

theorem InBody.awaits {moved : Bool} (hp : InBody h block (body ++ rest) moved t p)
    (hz : p.mem p.ending = 0) (hle : p.ending ≤ size) (ht : t < h + body.length) :
    awaitBody size p r = .reading p (some r) := by
  have hht := hp.le
  have htake : (body ++ rest).take (t - h) = body.take (t - h) :=
    take_append_of_le_length (by omega)
  have hcut : Buffer.cut (body.take (t - h)) = body.take (t - h) := by
    refine Buffer.cut_of_ne_zero fun c hc => ?_
    rintro rfl
    exact hbody (mem_of_mem_take hc)
  refine if_pos ?_
  rw [hp.str_middle hz hle, htake, hcut, length_take, hlength]
  omega

theorem InBody.processes {moved : Bool} (hp : InBody h block (body ++ rest) moved t p)
    (hz : p.mem p.ending = 0) (hle : p.ending ≤ size) (ht : h + body.length ≤ t) :
    awaitBody size p r = .processed p r := by
  refine if_neg ?_
  rw [hp.str_middle hz hle, take_append, take_of_length_le (by omega),
    Buffer.cut_append hbody,
    length_append, hlength]
  omega

/-- The body arrives, and the request is processed when it is complete. -/
theorem readChunks_body (hh : 0 < h) {ks : List ℕ}
    (hp : InBody h block (body ++ rest) (decide (size < t)) t p) (hz : p.mem p.ending = 0)
    (hle : p.ending ≤ size) (hks : Completes size h body.length t ks)
    (hsum : t - h + ks.sum ≤ (body ++ rest).length) :
    ∃ p', readChunks size numHeaders (awaitBody size p r)
        (Stream.deliver ((body ++ rest).drop (t - h)) ks) = .processed p' r ∧
      InBody h block (body ++ rest) (decide (size < t + ks.sum)) (t + ks.sum) p' ∧
      p'.mem p'.ending = 0 ∧ p'.ending ≤ size := by
  induction ks generalizing t p with
  | nil => exact ⟨p, hp.processes hlength hbody hz hle hks, hp, hz, hle⟩
  | cons k ks ih =>
    obtain ⟨ht, hk, hroom, hks⟩ := hks
    have hht := hp.le
    rw [sum_cons] at hsum ⊢
    obtain ⟨p₁, hread, hp₁, hz₁, hle₁⟩ := hp.read hh hk hroom (by omega)
    have hstep : (awaitBody size p r).step size numHeaders
        (.bytes (((body ++ rest).drop (t - h)).take k)) = awaitBody size p₁ r := by
      rw [hp.awaits hlength hbody hz hle ht, InputPhase.step, hread]
      refine scanRequest_done hp₁.state ?_
      have hmiddle := hp₁.middle
      have hending := hp₁.ending
      omega
    obtain ⟨p', hrun, hp', hz', hle'⟩ := ih hp₁ hz₁ hle₁ hks (by omega)
    refine ⟨p', ?_, ?_, hz', hle'⟩
    · rw [Stream.deliver, drop_drop, readChunks, Machine.run, foldl_cons, hstep,
        show t - h + k = t + k - h by omega]
      exact hrun
    · rwa [← Nat.add_assoc]

end Body

section Head

variable {size numHeaders n t k : ℕ} {head block data : Bytes} {p : Pool} {r : RequestRecord ℕ}

section

variable (hp : InHead (head ++ data) t p)

include hp

theorem InHead.received (hk : t + k ≤ (head ++ data).length) :
    let p' := p.received (((head ++ data).drop t).take k)
    p'.start = 0 ∧ p'.middle = t ∧ p'.ending = t + k ∧ p'.state = p.state ∧
      bytes p'.mem 0 (t + k) = (head ++ data).take (t + k) ∧
      bytes p'.mem t k = ((head ++ data).drop t).take k := by
  have hlen : (((head ++ data).drop t).take k).length = k := by
    rw [length_take, length_drop]
    omega
  have hall := bytes_received p (((head ++ data).drop t).take k) (i := 0) (n := t)
    (by rw [hp.ending, Nat.zero_add])
  have hchunk := bytes_received p (((head ++ data).drop t).take k) (i := t) (n := 0)
    (by rw [hp.ending, Nat.add_zero])
  rw [hlen, Nat.cast_zero, hp.bytes_eq, ← take_add] at hall
  rw [hlen, Nat.zero_add] at hchunk
  refine ⟨hp.start, hp.middle, ?_, rfl, hall, hchunk⟩
  change p.ending + _ = t + k
  rw [hlen, hp.ending]

theorem InHead.read (hk : 0 < k) (hsize : t + k ≤ size) (hlen : t + k ≤ (head ++ data).length) :
    readConnection size p (.bytes (((head ++ data).drop t).take k)) =
      some (p.received (((head ++ data).drop t).take k)) := by
  have hchunk : (((head ++ data).drop t).take k).length = k := by
    rw [length_take, length_drop]
    omega
  refine readConnection_bytes (if_pos ?_) ?_ ?_
  · rw [hp.ending]
    omega
  · rw [← length_pos_iff, hchunk]
    exact hk
  · rw [hp.ending, hchunk]
    exact hsize

/-- A read that does not complete the header block. -/
theorem InHead.part (hhead : scan .start head = some (.done, [])) (hk : t + k < head.length) :
    ∃ p', (p.received (((head ++ data).drop t).take k)).scanRequest size numHeaders none =
      .reading p' none ∧ InHead (head ++ data) (t + k) p' := by
  obtain ⟨hstart, hmiddle, hending, hstate, hall, hchunk⟩ :=
    hp.received (k := k) (by rw [length_append]; omega)
  have htake : (head ++ data).take (t + k) = head.take (t + k) :=
    take_append_of_le_length hk.le
  have hparts : scan .start (head.take (t + k) ++ head.drop (t + k)) = some (.done, []) := by
    rwa [take_append_drop]
  obtain ⟨st, hst, hne, -⟩ :=
    scan_part (by rw [← length_pos_iff, length_drop]; omega) hparts
  have hscan : scan p.state (((head ++ data).drop t).take k) = some (st, []) := by
    rw [← scan_append hp.scanned, ← take_add, htake]
    exact hst
  have hrequest : (p.received (((head ++ data).drop t).take k)).scanRequest size numHeaders none =
      .reading { p.received (((head ++ data).drop t).take k) with
        state := st
        middle := t + k } none := by
    rw [Pool.scanRequest, hstate, hmiddle, hending, Nat.add_sub_cancel_left, hchunk, hscan]
    simp only [length_nil, Nat.sub_zero, if_neg hne]
    rw [hending]
  exact ⟨_, hrequest, hstart, rfl, hending, hall, htake ▸ hst⟩

/-- The read that completes the header block. -/
theorem InHead.complete (hscanned : scan .start head = some (.done, []))
    (hreq : acceptedRequest numHeaders head = some (block, r)) (ht : t < head.length)
    (hk : head.length ≤ t + k) (hlen : t + k ≤ (head ++ data).length) (hsize : t + k ≤ size) :
    ∃ p', (p.received (((head ++ data).drop t).take k)).scanRequest size numHeaders none =
        (if r.fields.multiBoundary.isSome then .multipart p' r else awaitBody size p' r) ∧
      InBody head.length block data (decide (size < t + k)) (t + k) p' ∧ p'.mem p'.ending = 0 ∧
      p'.ending ≤ size := by
  obtain ⟨hstart, hmiddle, hending, hstate, hall, hchunk⟩ := hp.received hlen
  have hzero := received_ending p (((head ++ data).drop t).take k)
  generalize p.received (((head ++ data).drop t).take k) = p₁ at *
  -- the end of the header block is found, and the rest is left
  have hsplit : ((head ++ data).drop t).take k = head.drop t ++
      data.take (t + k - head.length) := by
    rw [drop_append_of_le_length ht.le, take_append, length_drop,
      take_of_length_le (by rw [length_drop]; omega)]
    congr 2
    omega
  have htail : scan p.state (head.drop t) = some (.done, []) := by
    have htake : (head ++ data).take t = head.take t := take_append_of_le_length ht.le
    have hscanned' := hp.scanned
    rw [htake] at hscanned'
    rw [← scan_append hscanned', take_append_drop]
    exact hscanned
  have hscan : scan p₁.state (bytes p₁.mem p₁.middle (p₁.ending - p₁.middle)) =
      some (.done, data.take (t + k - head.length)) := by
    rw [hstate, hmiddle, hending, Nat.add_sub_cancel_left, hchunk, hsplit, scan_append htail,
      scan_done]
  have hrest : (data.take (t + k - head.length)).length = t + k - head.length := by
    rw [length_append] at hlen
    rw [length_take]
    omega
  have hstored : bytes p₁.mem 0 (head.length + (t + k - head.length)) =
      head ++ data.take (t + k - head.length) := by
    rw [Nat.add_sub_cancel' hk, hall, take_append, take_of_length_le hk]
  obtain ⟨hblock, hdata⟩ := bytes_of_append hstored
  rw [Int.zero_add] at hdata
  -- `process_headers` writes the block back
  have hlast := (scan_last (by decide) hscanned).2
  obtain ⟨haccepted, c, hmore⟩ := processHeaders_eq hlast hreq (decide (head.length < t + k))
  have hlen' := haccepted.length
  have hmid : t + k - (data.take (t + k - head.length)).length = head.length := by
    rw [hrest]
    omega
  have hbehind : (0 : ℤ) + block.length ≤ head.length := by omega
  refine ⟨{ p₁ with
    state := .done
    middle := head.length
    mem := writeMem p₁.mem 0 block
    start := head.length }, ?_, ?_, ?_, by rwa [hending]⟩
  · rw [Pool.scanRequest, hscan]
    simp only [if_true, Pool.processRequest, hstart, hending, hmid, hblock]
    rw [hmore]
  · rw [decide_eq_false (by omega)]
    refine ⟨hk, rfl, rfl, rfl, ?_, ?_, fun i hi _ => ?_⟩
    · change p₁.ending = head.length + (t + k - head.length)
      omega
    · exact (bytes_writeMem_of_ge p₁.mem block hbehind).trans hdata
    · have hin : 0 ≤ (i : ℤ) ∧ (i : ℤ) < 0 + block.length := by omega
      have hpos : ((i : ℤ) - 0).toNat = i := by omega
      change writeMem p₁.mem 0 block i = byteAt block i
      rw [writeMem, if_pos hin, hpos, byteAt, getD_eq_getElem?_getD]
  · change writeMem p₁.mem 0 block p₁.ending = 0
    rw [writeMem, if_neg (by omega)]
    exact hzero

end

end Head

/-- The request is processed when it is complete. -/
theorem readChunks_head {numHeaders t : ℕ} {head body rest block : Bytes} {p : Pool}
    {r : RequestRecord ℕ} (hreq : PostRequest numHeaders head body.length block r)
    (hhead : head.length ≤ size) (hbody : 0 ∉ body) {ks : List ℕ}
    (hp : InHead (head ++ (body ++ rest)) t p) (ht : t < head.length)
    (hks : Completes size head.length body.length t ks)
    (hsum : t + ks.sum ≤ (head ++ (body ++ rest)).length) :
    ∃ p', readChunks size numHeaders (.reading p none)
        (Stream.deliver ((head ++ (body ++ rest)).drop t) ks) = .processed p' r ∧
      InBody head.length block (body ++ rest) (decide (size < t + ks.sum)) (t + ks.sum) p' ∧
      p'.mem p'.ending = 0 ∧ p'.ending ≤ size := by
  induction ks generalizing t p with
  | nil => exact absurd hks (by rw [Completes]; omega)
  | cons k ks ih =>
    obtain ⟨-, hk, hroom, hks⟩ := hks
    rw [sum_cons] at hsum ⊢
    rw [room, if_pos (by omega)] at hroom
    have hread : readConnection size p (.bytes (((head ++ (body ++ rest)).drop t).take k)) =
        some (p.received (((head ++ (body ++ rest)).drop t).take k)) :=
      hp.read hk (by omega) (by omega)
    have hstep : ∀ ph, (p.received (((head ++ (body ++ rest)).drop t).take k)).scanRequest size
          numHeaders none = ph →
        readChunks size numHeaders (.reading p none)
          (Stream.deliver ((head ++ (body ++ rest)).drop t) (k :: ks)) =
        readChunks size numHeaders ph
          (Stream.deliver ((head ++ (body ++ rest)).drop (t + k)) ks) := by
      intro ph hph
      rw [Stream.deliver, drop_drop, readChunks, Machine.run, foldl_cons,
        InputPhase.step, hread]
      simp only
      rw [hph]
      rfl
    by_cases hcomplete : t + k < head.length
    · obtain ⟨p₁, hscan, hp₁⟩ := hp.part hreq.scanned hcomplete
      obtain ⟨p', hrun, hp'⟩ := ih hp₁ hcomplete hks (by omega)
      rw [hstep _ hscan, ← Nat.add_assoc]
      exact ⟨p', hrun, hp'⟩
    · have hsize : t + k ≤ size := by omega
      obtain ⟨p₁, hscan, hp₁, hz₁, hle₁⟩ :=
        hp.complete hreq.scanned hreq.accepted ht (not_lt.mp hcomplete) (by omega) hsize
      rw [hreq.boundary, isSome_none, if_neg Bool.false_ne_true] at hscan
      have hdrop : (head ++ (body ++ rest)).drop (t + k) =
          (body ++ rest).drop (t + k - head.length) := by
        rw [drop_append, drop_eq_nil_of_le (not_lt.mp hcomplete), nil_append]
      rw [length_append] at hsum
      obtain ⟨p', hrun, hp'⟩ := readChunks_body hreq.length hbody (by omega) hp₁ hz₁ hle₁ hks
        (by omega)
      rw [hstep _ hscan, hdrop, ← Nat.add_assoc]
      exact ⟨p', hrun, hp'⟩

/-- The request is processed with the strings of its header block and with its body, and the
environment of a program is made from them. -/
def Exact (size numHeaders : ℕ) (mem : ℤ → UInt8) (head block : Bytes) (r : RequestRecord ℕ)
    (ks : List ℕ) (body rest : Bytes) : Prop :=
  let ph := readChunks size numHeaders (.reading (.fresh mem) none)
    (Stream.deliver (head ++ (body ++ rest)) ks)
  ph.request size = some (r.map (str block), body) ∧
    ∀ processPath, ph.environment size processPath =
      some (makeCgiEnvp (processPath (r.map (str block))) (r.map (str block)) body)

section Request

variable {size numHeaders : ℕ} {head block body rest data : Bytes} {r : RequestRecord ℕ}
  {ks : List ℕ}

theorem PostRequest.processed (mem : ℤ → UInt8) (rest : Bytes)
    (hreq : PostRequest numHeaders head body.length block r) (hhead : head.length ≤ size)
    (hbody : 0 ∉ body) (hks : Completes size head.length body.length 0 ks)
    (hsum : ks.sum ≤ (head ++ (body ++ rest)).length) :
    ∃ p, readChunks size numHeaders (.reading (.fresh mem) none)
        (Stream.deliver (head ++ (body ++ rest)) ks) = .processed p r ∧
      InBody head.length block (body ++ rest) (decide (size < ks.sum)) ks.sum p ∧
      p.str size p.middle = Buffer.cut ((body ++ rest).take (ks.sum - head.length)) ∧
      p.mem p.ending = 0 ∧ p.ending ≤ size := by
  have hpos := length_pos_iff.mpr (scan_last (by decide) hreq.scanned).1
  have hp : InHead (head ++ (body ++ rest)) 0 (.fresh mem) := ⟨rfl, rfl, rfl, rfl, rfl⟩
  obtain ⟨p, hrun, hp, hz, hle⟩ := readChunks_head hreq hhead hbody hp hpos hks (by omega)
  rw [Nat.zero_add] at hp
  exact ⟨p, hrun, hp, hp.str_middle hz hle, hz, hle⟩

theorem InBody.str_eq {moved : Bool} {t : ℕ} {p : Pool}
    (hp : InBody head.length block (body ++ rest) moved t p)
    (haccepted : Accepted head block r) (hb : r.fields.multiBoundary = none)
    (hhead : head.length ≤ size) (hkept : moved = true → t - head.length < requestStart head) :
    r.map (p.str size) = r.map (str block) := by
  obtain ⟨z, hzlt, hzero, hpoints⟩ := haccepted.zero
  have hfields : r.fields.map (p.str size) = r.fields.map (str block) := by
    refine hpoints.map_congr hb fun q hq hqz => ?_
    rw [haccepted.methodS] at hq
    refine cut_bytes_eq_str hqz hzero (by omega) fun i hi hiz =>
      hp.block_eq i (by omega) fun hm => ?_
    have := hkept hm
    omega
  simp only [RequestRecord.map, hfields]

theorem parseMethod_post {s : Bytes} (h : parseMethod s = some .post) :
    s = ascii ['P', 'O', 'S', 'T'] := by
  rw [parseMethod] at h
  split_ifs at h with hget hhead hpost
  · cases h
  · cases h
  · exact hpost

/-- A request whose header block was overwritten up to the request line has lost its method. -/
theorem InBody.method_lost {t : ℕ} {p : Pool} (hp : InBody head.length block data true t p)
    (hz : p.mem p.ending = 0) (hdata : ∀ c ∈ data, c = 88)
    (hlost : requestStart head ≤ t - head.length) (hsize : p.ending ≤ size) :
    p.str size (requestStart head) ≠ ascii ['P', 'O', 'S', 'T'] := by
  have hending : p.ending = t - head.length := by rw [hp.ending, hp.start, if_pos rfl, Nat.zero_add]
  have hbyte : p.mem (requestStart head : ℕ) = 0 ∨ p.mem (requestStart head : ℕ) = 88 := by
    rcases Nat.lt_or_eq_of_le hlost with hlt | heq
    · have hbytes := hp.bytes_eq
      rw [hp.start, if_pos rfl] at hbytes
      have hget := getElem?_bytes p.mem (0 : ℕ) hlt
      rw [hbytes, Nat.cast_zero, Int.zero_add] at hget
      exact .inr (hdata _ (mem_of_mem_take (mem_of_getElem? hget)))
    · rw [heq, ← hending]
      exact .inl hz
  obtain ⟨m, hm⟩ : ∃ m, size + 1 - requestStart head = m + 1 := ⟨size - requestStart head, by omega⟩
  rw [Pool.str, hm, bytes]
  rcases hbyte with hzero | hx
  · rw [hzero, Buffer.cut, takeWhile_cons_of_neg (by decide)]
    decide
  · rw [hx, Buffer.cut, takeWhile_cons_of_pos (by decide)]
    intro heq
    exact absurd (cons.inj heq).1 (by decide)

end Request

/-- Requests in chunks are processed as they were sent, whatever body they have and whatever follows
it, if and only if the header block and the body fit into the buffer together, or the body does not
reach the request line, and the chunk that completes the body ends with it. -/
theorem requests_exact_iff {size numHeaders n m : ℕ} {head block : Bytes} {r : RequestRecord ℕ}
    {ks : List ℕ} (mem : ℤ → UInt8) (hreq : PostRequest numHeaders head n block r)
    (hhead : head.length ≤ size) (hks : Completes size head.length n 0 ks)
    (hsum : ks.sum ≤ head.length + n + m) :
    (∀ body rest : Bytes, body.length = n → 0 ∉ body → rest.length = m →
        Exact size numHeaders mem head block r ks body rest) ↔
      (head.length + n ≤ size ∨ n < requestStart head) ∧ ks.sum = head.length + n := by
  have hlast := (scan_last (by decide) hreq.scanned).2
  have haccepted := (processHeaders_eq hlast hreq.accepted false).1
  constructor
  · intro hexact
    have hx : ∀ k, (0 : UInt8) ∉ replicate k 88 := fun k h0 =>
      absurd (eq_of_mem_replicate h0) (by decide)
    obtain ⟨hrequest, -⟩ := hexact (replicate n 88) (replicate m 88)
      length_replicate (hx n) length_replicate
    have hreq' : PostRequest numHeaders head (replicate n (88 : UInt8)).length block r := by
      rwa [length_replicate]
    obtain ⟨p, hrun, hp, hstr, hz, hle⟩ := hreq'.processed mem (replicate m 88) hhead (hx n)
      (by rwa [length_replicate])
      (by simp only [length_append, length_replicate]; omega)
    rw [hrun, InputPhase.request] at hrequest
    obtain ⟨hmap, hquery⟩ := Prod.mk.inj (some.inj hrequest)
    have hge := hks.le_sum
    -- the string behind the header block is as long as what was read of it
    have htotal : ks.sum = head.length + n := by
      rw [hstr, ← replicate_add, take_replicate,
        Buffer.cut_of_ne_zero fun c hc h0 => hx _ (h0 ▸ hc)] at hquery
      have hlen := congrArg length hquery
      simp only [length_replicate] at hlen
      omega
    refine ⟨?_, htotal⟩
    by_contra hlost
    have hmoved : size < ks.sum := by omega
    rw [decide_eq_true hmoved] at hp
    have hmethod := congrArg (fun q => q.fields.methodS) hmap
    simp only [RequestRecord.map, HeaderFields.map] at hmethod
    rw [haccepted.methodS] at hmethod
    refine hp.method_lost hz (fun c hc => ?_) (by omega) hle ?_
    · rcases mem_append.mp hc with h | h
      · exact eq_of_mem_replicate h
      · exact eq_of_mem_replicate h
    · rw [hmethod, ← haccepted.methodS]
      exact parseMethod_post (haccepted.method.trans (congrArg some hreq.post))
  · rintro ⟨hfit, htotal⟩ body rest rfl hbody rfl
    obtain ⟨p, hrun, hp, hstr, -, -⟩ := hreq.processed mem rest hhead hbody hks
      (by simp only [length_append]; omega)
    have hmap : r.map (p.str size) = r.map (str block) := by
      refine hp.str_eq haccepted hreq.boundary hhead fun hmoved => ?_
      have hlt := of_decide_eq_true hmoved
      omega
    have hquery : p.str size p.middle = body := by
      rw [hstr, htotal, Nat.add_sub_cancel_left, take_left,
        Buffer.cut_of_ne_zero fun c hc h0 => hbody (h0 ▸ hc)]
    have hfinal : (InputPhase.processed p r).request size = some (r.map (str block), body) := by
      rw [InputPhase.request, hmap, hquery]
    refine ⟨by rw [hrun]; exact hfinal, fun processPath => ?_⟩
    rw [hrun, InputPhase.environment, hfinal]
    rfl

def onePost : Bytes :=
  ascii ['P', 'O', 'S', 'T', ' ', '/', 'a', ' ', 'H', 'T', 'T', 'P', '/', '1', '.', '0', '\r',
    '\n'] ++ contentLengthName ++ ascii [':', ' ', '1', '\r', '\n', '\r', '\n']

theorem onePost_request : ∃ block r, PostRequest 1 onePost 1 block r := by
  have hscan : scan .start onePost = some (.done, []) := by decide +kernel
  have hcheck : ((acceptedRequest 1 onePost).map fun q =>
      (q.2.method, q.2.fields.multiBoundary, q.2.inMblen)) = some (.post, none, 1) := by
    decide +kernel
  obtain ⟨⟨block, r⟩, hq, hfacts⟩ := map_eq_some_iff.mp hcheck
  simp only [Prod.mk.injEq] at hfacts
  exact ⟨block, r, hscan, hq, hfacts.1, hfacts.2.1, hfacts.2.2⟩

/-- The request in two chunks, with a byte behind it that is not read. -/
theorem requests_exact_onePost : ∃ block r, PostRequest 1 onePost 1 block r ∧
    ∀ body rest : Bytes, body.length = 1 → 0 ∉ body → rest.length = 1 →
      Exact 40 1 (fun _ => 0) onePost block r [20, 20] body rest := by
  obtain ⟨block, r, hreq⟩ := onePost_request
  refine ⟨block, r, hreq, ?_⟩
  exact (requests_exact_iff (fun _ => 0) hreq (by decide +kernel) (by decide +kernel)
    (by decide +kernel)).mpr (by decide +kernel)

/-- A chunk that brings the byte behind the body adds it to the body; and a body that does not fit
into the buffer with the header block replaces the method. -/
theorem requests_not_exact : ∃ block r, PostRequest 1 onePost 1 block r ∧
    (Completes 60 onePost.length 1 0 [41] ∧
      ¬ Exact 60 1 (fun _ => 0) onePost block r [41] [97] [98]) ∧
    (Completes 39 onePost.length 1 0 [39, 1] ∧
      ¬ Exact 39 1 (fun _ => 0) onePost block r [39, 1] [97] []) := by
  obtain ⟨block, r, hreq⟩ := onePost_request
  refine ⟨block, r, hreq, ⟨by decide +kernel, ?_⟩, by decide +kernel, ?_⟩
  · rintro ⟨hrequest, -⟩
    have hquery := congrArg (Option.map Prod.snd) hrequest
    change _ = some ([97] : Bytes) at hquery
    revert hquery
    decide +kernel
  · rintro ⟨hrequest, -⟩
    have hlast := (scan_last (by decide) hreq.scanned).2
    have haccepted := (processHeaders_eq hlast hreq.accepted false).1
    have hmethod := congrArg (Option.map fun q => q.1.fields.methodS) hrequest
    change _ = some (str block r.fields.methodS) at hmethod
    rw [parseMethod_post (haccepted.method.trans (congrArg some hreq.post))] at hmethod
    revert hmethod
    decide +kernel

end Wbr1310.Httpd
