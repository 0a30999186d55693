import Wbr1310.Httpd.Chunking

/-!
# What `read_connection` stores

The buffer of a connection is a queue of the bytes that were received and not yet consumed, from
`start` to `end`. `read_connection` writes a zero behind what it has read before it looks at the
result: behind the buffer if the read has filled it, and on the last byte of the queue, or in front
of the buffer, if the result is -1.
-/

namespace Wbr1310.Httpd

open Lib Lib.Bytes List Function Option Nat

namespace Pool

section

variable (size : ℕ) (p : Pool) (queue : Bytes) (r : ReadResult)

/-- The bytes from `start` to `end`. -/
def content : Bytes := bytes p.mem p.start (p.ending - p.start)

def Ordered : Prop :=
  p.start ≤ p.middle ∧ p.middle ≤ p.ending ∧ p.ending ≤ size

/-- The buffer when `read_connection` returns, whether it closes the connection or not. -/
def afterRead : Pool :=
  match makeRoom size p with
  | none => p
  | some p => match r with
    | .again | .error => { p with mem := Function.update p.mem (p.ending - 1) 0 }
    | .bytes bs => p.received (bs.take (size - p.ending))

/-- What `read_connection` stores to: what is moved, what is read, and the zero. -/
def readStores : List Span :=
  match makeRoom size p with
  | none => []
  | some p' =>
    (if p.ending = size then [⟨0, p.ending - p.start⟩] else []) ++
      match r with
      | .again | .error => [⟨p'.ending - 1, 1⟩]
      | .bytes bs =>
        let got := bs.take (size - p'.ending)
        [⟨p'.ending, got.length⟩, ⟨p'.ending + got.length, 1⟩]

def readBytes : Bytes :=
  match makeRoom size p, r with
  | some p, .bytes bs => bs.take (size - p.ending)
  | _, _ => []

/-- All stores of a read are in the buffer; after it the positions are in order, and what was
received stands behind the queue. -/
def ReadSafe : Prop :=
  (∀ s ∈ p.readStores size r, s.Inside size) ∧ (p.afterRead size r).Ordered size ∧
    (p.afterRead size r).content = queue ++ p.readBytes size r

/-- The buffer is full and cannot be moved, so that nothing is read; or fewer bytes come than fit;
or the result is -1 and the zero does no harm: there is nothing in the queue and it does not stand
at either end of the buffer, or its last byte is a zero. -/
def ReadFits : Prop :=
  (p.ending = size ∧ p.start = 0) ∨ match r with
    | .bytes bs => bs.length < if p.ending = size then p.start else size - p.ending
    | .again | .error =>
      (p.start = p.ending ∧ 0 < p.ending ∧ p.ending < size) ∨
        (p.start < p.ending ∧ p.mem (p.ending - 1) = 0)

end

variable {size : ℕ} {p p' : Pool}

theorem afterRead_of_readConnection {r : ReadResult} (h : readConnection size p r = some p') :
    p' = p.afterRead size r := by
  rw [readConnection] at h
  rw [afterRead]
  cases hroom : makeRoom size p with
  | none =>
    rw [hroom] at h
    cases h
  | some p₁ =>
    rw [hroom] at h
    cases r with
    | again => exact (some.inj h).symm
    | error => cases h
    | bytes bs =>
      simp only at h ⊢
      split at h
      · cases h
      · exact (some.inj h).symm

/-- What room is made of: the queue and the order of the positions are kept, and the end is not the
end of the buffer. -/
structure Moved (size : ℕ) (p p' : Pool) : Prop where
  ordered : p'.Ordered size
  content : p'.content = p.content
  room : size - p'.ending = if p.ending = size then p.start else size - p.ending
  pos : p'.ending < size
  empty : p'.start = p'.ending ↔ p.start = p.ending
  floor : p'.ending = 0 ↔ p.ending = 0 ∨ (p.ending = size ∧ p.start = p.ending)

theorem moved_of_makeRoom (hp : p.Ordered size) (h : makeRoom size p = some p') :
    p.Moved size p' := by
  obtain ⟨hstart, hmiddle, hsize⟩ := hp
  rw [makeRoom] at h
  split at h
  case isTrue hne =>
    obtain rfl := some.inj h
    exact ⟨⟨hstart, hmiddle, hsize⟩, rfl, by rw [if_neg hne], by omega, Iff.rfl,
      by simp only [hne, false_and, or_false]⟩
  case isFalse hfull =>
    rw [not_not] at hfull
    split at h
    case isTrue => cases h
    case isFalse hne =>
      obtain rfl := some.inj h
      have hlen : (bytes p.mem p.start (p.ending - p.start)).length = p.ending - p.start :=
        length_bytes _ _ _
      refine ⟨⟨zero_le _, by simp only; omega, by simp only; omega⟩, ?_,
        by rw [if_pos hfull]; simp only; omega, by simp only; omega, by simp only; omega,
        by simp only; omega⟩
      have hmoved := bytes_writeMem p.mem 0 (bytes p.mem p.start (p.ending - p.start))
      rwa [hlen] at hmoved

theorem content_eq_nil (h : p.start = p.ending) : p.content = [] := by
  rw [content, h, Nat.sub_self]
  rfl

theorem content_concat (h : p.start < p.ending) :
    p.content = bytes p.mem p.start (p.ending - 1 - p.start) ++ [p.mem (p.ending - 1)] := by
  have hlen : p.ending - p.start = p.ending - 1 - p.start + 1 := by omega
  rw [content, hlen, bytes_add]
  congr 2
  simp only [bytes, cons.injEq, and_true]
  congr 1
  omega

theorem Moved.last (hm : p.Moved size p') (h : p.start < p.ending) :
    p'.mem (p'.ending - 1) = p.mem (p.ending - 1) := by
  have hlt : p'.start < p'.ending :=
    lt_of_le_of_ne (hm.ordered.1.trans hm.ordered.2.1) (mt hm.empty.mp h.ne)
  have hcontent := hm.content
  rw [content_concat h, content_concat hlt] at hcontent
  exact singleton_inj.mp (append_inj_right' hcontent rfl)

theorem content_zero_iff (hle : p.start ≤ p.ending) :
    content { p with mem := Function.update p.mem (p.ending - 1) 0 } = p.content ↔
      p.start = p.ending ∨ p.mem (p.ending - 1) = 0 := by
  obtain heq | hlt := eq_or_lt_of_le hle
  · refine iff_of_true ?_ (.inl heq)
    rw [content_eq_nil heq]
    exact content_eq_nil heq
  · have hbefore : bytes (update p.mem (p.ending - 1) 0) p.start
        (p.ending - 1 - p.start) = bytes p.mem p.start (p.ending - 1 - p.start) :=
      bytes_congr fun k _ hk => update_of_ne (by omega) _ _
    have hzero := content_concat (p := { p with mem := update p.mem (p.ending - 1) 0 }) hlt
    simp only [update_self, hbefore] at hzero
    rw [hzero, content_concat hlt, append_cancel_left_eq, singleton_inj,
      or_iff_right hlt.ne]
    exact eq_comm

theorem content_received (hle : p.start ≤ p.ending) (c : Bytes) :
    (p.received c).content = p.content ++ c := by
  have hlen : (p.received c).ending - (p.received c).start =
      p.ending - p.start + c.length := by
    simp only [received]
    omega
  have hn : p.start + (p.ending - p.start) = p.ending := Nat.add_sub_cancel' hle
  rw [content, hlen]
  exact bytes_received p c hn

theorem received_safe_iff (hp : p.Ordered size) (hpos : p.ending < size) (bs : Bytes) :
    (∀ s ∈ [(⟨p.ending, (bs.take (size - p.ending)).length⟩ : Span),
        ⟨p.ending + (bs.take (size - p.ending)).length, 1⟩], s.Inside size) ∧
      (p.received (bs.take (size - p.ending))).Ordered size ∧
      (p.received (bs.take (size - p.ending))).content =
        p.content ++ bs.take (size - p.ending) ↔
      bs.length < size - p.ending := by
  obtain ⟨hstart, hmiddle, -⟩ := hp
  have hcontent := content_received (hstart.trans hmiddle) (bs.take (size - p.ending))
  have hordered : (p.received (bs.take (size - p.ending))).Ordered size := by
    simp only [Ordered, received, length_take]
    omega
  rw [and_iff_left ⟨hordered, hcontent⟩, forall_mem_cons, forall_mem_singleton]
  simp only [Span.Inside, length_take]
  omega

theorem zero_safe_iff (hp : p.Ordered size) (hpos : p.ending < size) :
    (∀ s ∈ [(⟨p.ending - 1, 1⟩ : Span)], s.Inside size) ∧
      Ordered size { p with mem := Function.update p.mem (p.ending - 1) 0 } ∧
      content { p with mem := Function.update p.mem (p.ending - 1) 0 } = p.content ↔
      0 < p.ending ∧ (p.start = p.ending ∨ p.mem (p.ending - 1) = 0) := by
  have hordered : Ordered size { p with mem := update p.mem (p.ending - 1) 0 } := hp
  rw [and_iff_right hordered, content_zero_iff (hp.1.trans hp.2.1), forall_mem_singleton]
  refine and_congr_left' ?_
  simp only [Span.Inside]
  omega

theorem readSafe_iff (hp : p.Ordered size) (r : ReadResult) :
    p.ReadSafe size p.content r ↔ p.ReadFits size r := by
  cases hroom : makeRoom size p with
  | none =>
    have hfull : p.ending = size ∧ p.start = 0 := by
      simp only [makeRoom] at hroom
      split_ifs at hroom with h₁ h₂
      exact ⟨not_not.mp h₁, h₂⟩
    refine iff_of_true ?_ (.inl hfull)
    simp only [ReadSafe, readStores, afterRead, readBytes, hroom, append_nil]
    exact ⟨fun _ h => absurd h not_mem_nil, hp, trivial⟩
  | some p' =>
    have hm := moved_of_makeRoom hp hroom
    have hfull : ¬ (p.ending = size ∧ p.start = 0) := by
      rintro ⟨hend, hstart⟩
      rw [makeRoom, if_neg (not_not.mpr hend), if_pos hstart] at hroom
      cases hroom
    have hend := hp.2.2
    have hmove : ∀ s ∈ (if p.ending = size then [(⟨0, p.ending - p.start⟩ : Span)] else []),
        s.Inside size := by
      intro s hs
      split at hs
      · obtain rfl := mem_singleton.mp hs
        simp only [Span.Inside]
        omega
      · exact absurd hs not_mem_nil
    -- the zero after a result of -1, for the positions before room was made
    have hzero : 0 < p'.ending ∧ (p'.start = p'.ending ∨ p'.mem (p'.ending - 1) = 0) ↔
        (p.start = p.ending ∧ 0 < p.ending ∧ p.ending < size) ∨
          (p.start < p.ending ∧ p.mem (p.ending - 1) = 0) := by
      have hfloor := hm.floor
      obtain heq | hlt := eq_or_lt_of_le (hp.1.trans hp.2.1)
      · have := hm.empty
        omega
      · have hne : p'.start ≠ p'.ending := mt hm.empty.mp hlt.ne
        have hsome : 0 < p'.ending := by omega
        simp only [hm.last hlt, hsome, hne, hlt.ne, hlt, true_and, false_and, false_or]
    cases r with
    | bytes bs =>
      simp only [ReadSafe, readStores, afterRead, readBytes, hroom, ReadFits, hfull, false_or,
        ← hm.room, ← hm.content]
      rw [forall_mem_append, and_iff_right hmove]
      exact received_safe_iff hm.ordered hm.pos bs
    | again | error =>
      simp only [ReadSafe, readStores, afterRead, readBytes, hroom, ReadFits, hfull, false_or,
        ← hm.content, append_nil]
      rw [forall_mem_append, and_iff_right hmove, ← hzero]
      exact zero_safe_iff hm.ordered hm.pos

end Pool

/-- A connection, with the queue that its buffer stands for: it waits for input, or an answer is
made and sent, or it is closed. -/
inductive InputConn where
  | reading (p : Pool) (record : Option (RequestRecord ℕ)) (queue : Bytes)
  | answering (p : Pool) (queue : Bytes)
  | closed

/-- What happens: the socket is readable; the answer is sent and the connection is kept; or a
script is started for the request. -/
inductive InputEvent where
  | readable (r : ReadResult)
  | finished
  | forked

/-- The buffer behind the loop of `scan_request`. -/
def Pool.scanned (p : Pool) : Pool :=
  match scan p.state (bytes p.mem p.middle (p.ending - p.middle)) with
  | none => p
  | some (st, rest) => { p with state := st, middle := p.ending - rest.length }

/-- What `scan_request` makes of the connection. What `start` has passed leaves the queue. Once an
answer is made, what `process_headers` has changed before `middle` is not looked at again. -/
def scanConnection (size numHeaders : ℕ) (p : Pool) (record : Option (RequestRecord ℕ))
    (queue : Bytes) : InputConn :=
  match p.scanRequest size numHeaders record with
  | .reading p' record' => .reading p' record' (queue.drop (p'.start - p.start))
  | .closed => .closed
  | .replied _ => .answering p.scanned queue
  | .multipart p' _ | .processed p' _ => .answering p' (queue.drop (p'.start - p.start))

def reinitConnection (size numHeaders : ℕ) (p : Pool) (queue : Bytes) : InputConn :=
  if p.middle = p.ending then .reading (.fresh p.mem) none []
  else scanConnection size numHeaders { p with start := p.middle, state := .start } none
    (queue.drop (p.middle - p.start))

/-- What `init_child` does to the buffer: the body is left to the script. -/
def initChild (p : Pool) (queue : Bytes) : InputConn :=
  .answering { p with mem := Function.update p.mem p.ending 0, ending := p.middle }
    (queue.take (p.middle - p.start))

namespace InputConn

def step (size numHeaders : ℕ) : InputConn → InputEvent → InputConn
  | .reading p record queue, .readable r =>
    match readConnection size p r with
    | none => .closed
    | some p' => scanConnection size numHeaders p' record (queue ++ p.readBytes size r)
  | .answering p queue, .finished => reinitConnection size numHeaders p queue
  | .answering p queue, .forked => initChild p queue
  | c, _ => c

def Kept (size : ℕ) : InputConn → Prop
  | .reading p _ queue | .answering p queue => p.Ordered size ∧ p.content = queue
  | .closed => True

def EventSafe (size : ℕ) : InputConn → InputEvent → Prop
  | .reading p _ queue, .readable r => p.ReadSafe size queue r
  | _, _ => True

def EventFits (size : ℕ) : InputConn → InputEvent → Prop
  | .reading p _ _, .readable r => p.ReadFits size r
  | _, _ => True

end InputConn

theorem scan_suffix {st st' : ScanPhase} {s rest : Bytes} (h : scan st s = some (st', rest)) :
    rest <:+ s := by
  induction s generalizing st with
  | nil =>
    obtain ⟨-, rfl⟩ := Prod.mk.inj (some.inj h)
    exact suffix_rfl
  | cons c s ih =>
    rw [scan] at h
    split at h
    · obtain ⟨-, rfl⟩ := Prod.mk.inj (some.inj h)
      exact suffix_rfl
    · split at h
      · cases h
      · exact (ih h).trans (suffix_cons c s)

namespace Pool

variable {size numHeaders : ℕ} {p : Pool}

theorem scanned_spec (hp : p.Ordered size) :
    p.scanned.Ordered size ∧ p.scanned.content = p.content ∧ p.scanned.start = p.start := by
  rw [scanned]
  split
  · exact ⟨hp, rfl, rfl⟩
  · next st rest hscan =>
    have hle := (scan_suffix hscan).length_le
    rw [length_bytes] at hle
    obtain ⟨hstart, hmiddle, hsize⟩ := hp
    exact ⟨⟨by simp only; omega, by simp only; omega, hsize⟩, rfl, rfl⟩

theorem scanRequest_eq (record : Option (RequestRecord ℕ)) :
    p.scanRequest size numHeaders record =
      match scan p.state (bytes p.mem p.middle (p.ending - p.middle)) with
      | none => .closed
      | some _ =>
        if p.scanned.state = .done then p.scanned.processRequest size numHeaders record
        else .reading p.scanned record := by
  rw [scanRequest, scanned]
  cases scan p.state (bytes p.mem p.middle (p.ending - p.middle)) <;> rfl

theorem content_accepted (hp : p.Ordered size) {b : Bytes} {e : ℕ} {more c : Bool}
    {r : RequestRecord ℕ}
    (h : processHeaders numHeaders more (bytes p.mem 0 p.middle) p.start = .accepted b e r c) :
    Ordered size { p with mem := writeMem p.mem 0 b, start := e } ∧
      content { p with mem := writeMem p.mem 0 b, start := e } =
        p.content.drop (e - p.start) := by
  obtain ⟨hstart, hmiddle, hsize⟩ := hp
  obtain ⟨hle, hmid, hwithin⟩ := processHeaders_within h
  have hlen := hwithin.length
  rw [length_bytes] at hmid hlen
  refine ⟨⟨hmid, hmiddle, hsize⟩, ?_⟩
  have hcut : p.ending - p.start = (e - p.start) + (p.ending - e) := by omega
  have hpos : (p.start : ℤ) + (e - p.start : ℕ) = e := by omega
  rw [content, content, hcut, drop_bytes, hpos]
  refine bytes_congr fun k (hk : (e : ℤ) ≤ k) _ => ?_
  obtain ⟨k, rfl⟩ := Int.eq_ofNat_of_zero_le (by omega : 0 ≤ k)
  simp only [writeMem]
  split
  · next hin =>
    have hsame := hwithin.outside k (.inr (by omega))
    rw [byteAt, byteAt, getD_eq_getElem?_getD, getD_eq_getElem?_getD,
      getElem?_bytes _ _ (by omega), getD_some, Int.zero_add] at hsame
    rwa [Int.sub_zero, Int.toNat_natCast]
  · rfl

end Pool

/-- The buffer of a phase holds what `start` has not passed of the queue. -/
def InputPhase.KeptFrom (size : ℕ) (p : Pool) : InputPhase → Prop
  | .reading q _ | .multipart q _ | .processed q _ =>
    q.Ordered size ∧ q.content = p.content.drop (q.start - p.start)
  | .closed | .replied _ => True

section Steps

variable {size numHeaders : ℕ} {p : Pool}

theorem awaitBody_keptFrom {q : Pool} (r : RequestRecord ℕ) (hq : q.Ordered size)
    (hcontent : q.content = p.content.drop (q.start - p.start)) :
    (awaitBody size q r).KeptFrom size p := by
  rw [awaitBody]
  split <;> exact ⟨hq, hcontent⟩

theorem processRequest_keptFrom (numHeaders : ℕ) (hp : p.Ordered size)
    (record : Option (RequestRecord ℕ)) :
    (p.processRequest size numHeaders record).KeptFrom size p := by
  have hsame : p.content = p.content.drop (p.start - p.start) := by
    rw [Nat.sub_self, drop_zero]
  cases record with
  | some r => exact awaitBody_keptFrom r hp hsame
  | none =>
    rw [Pool.processRequest]
    split
    · trivial
    · trivial
    · next b e r c haccepted =>
      obtain ⟨hordered, hcontent⟩ := Pool.content_accepted hp haccepted
      simp only
      split
      · exact ⟨hordered, hcontent⟩
      · exact awaitBody_keptFrom r hordered hcontent

theorem scanRequest_keptFrom (numHeaders : ℕ) (hp : p.Ordered size)
    (record : Option (RequestRecord ℕ)) :
    (p.scanRequest size numHeaders record).KeptFrom size p := by
  obtain ⟨hordered, hcontent, hstart⟩ := p.scanned_spec hp
  rw [Pool.scanRequest_eq]
  split
  · trivial
  · split
    · have h := processRequest_keptFrom numHeaders hordered record
      -- what is kept from the scanned buffer is kept from the buffer itself
      revert h
      cases p.scanned.processRequest size numHeaders record <;>
        simp only [InputPhase.KeptFrom, hcontent, hstart, imp_self]
    · refine ⟨hordered, ?_⟩
      rw [hstart, Nat.sub_self, drop_zero, hcontent]

theorem scanConnection_kept (hp : p.Ordered size) (record : Option (RequestRecord ℕ)) :
    (scanConnection size numHeaders p record p.content).Kept size := by
  have h := scanRequest_keptFrom numHeaders hp record
  rw [scanConnection]
  cases hphase : p.scanRequest size numHeaders record with
  | closed => trivial
  | replied status => exact ⟨(p.scanned_spec hp).1, (p.scanned_spec hp).2.1⟩
  | reading q r | multipart q r | processed q r =>
    rw [hphase] at h
    exact h

theorem reinitConnection_kept (hp : p.Ordered size) :
    (reinitConnection size numHeaders p p.content).Kept size := by
  obtain ⟨hstart, hmiddle, hsize⟩ := hp
  rw [reinitConnection]
  split
  · exact ⟨⟨le_rfl, le_rfl, zero_le _⟩, rfl⟩
  · have hordered : Pool.Ordered size { p with start := p.middle, state := .start } :=
      ⟨le_rfl, hmiddle, hsize⟩
    have hcontent : p.content.drop (p.middle - p.start) =
        Pool.content { p with start := p.middle, state := .start } := by
      have hcut : p.ending - p.start = (p.middle - p.start) + (p.ending - p.middle) := by omega
      have hpos : (p.start : ℤ) + (p.middle - p.start : ℕ) = p.middle := by omega
      rw [Pool.content, Pool.content, hcut, drop_bytes, hpos]
    rw [hcontent]
    exact scanConnection_kept hordered none

theorem initChild_kept (hp : p.Ordered size) : (initChild p p.content).Kept size := by
  obtain ⟨hstart, hmiddle, hsize⟩ := hp
  refine ⟨⟨hstart, le_rfl, hmiddle.trans hsize⟩, ?_⟩
  have hcut : p.ending - p.start = (p.middle - p.start) + (p.ending - p.middle) := by omega
  rw [Pool.content, Pool.content, hcut, bytes_add, take_left' (length_bytes _ _ _)]
  refine bytes_congr fun k _ (hk : k < (p.start : ℤ) + (p.middle - p.start : ℕ)) => ?_
  exact update_of_ne (by omega) _ _

end Steps

namespace InputConn

variable {size : ℕ} {c : InputConn} {e : InputEvent}

theorem eventSafe_iff (hc : c.Kept size) : c.EventSafe size e ↔ c.EventFits size e := by
  cases c with
  | closed => exact Iff.rfl
  | answering p queue => exact Iff.rfl
  | reading p record queue =>
    cases e with
    | finished => exact Iff.rfl
    | forked => exact Iff.rfl
    | readable r =>
      obtain ⟨hp, rfl⟩ := hc
      exact p.readSafe_iff hp r

/-- A safe event keeps the pool in order. -/
theorem step_kept (numHeaders : ℕ) (hc : c.Kept size) (hsafe : c.EventSafe size e) :
    (c.step size numHeaders e).Kept size := by
  cases c with
  | closed => trivial
  | answering p queue =>
    obtain ⟨hp, rfl⟩ := hc
    cases e with
    | readable r => exact ⟨hp, rfl⟩
    | finished => exact reinitConnection_kept hp
    | forked => exact initChild_kept hp
  | reading p record queue =>
    cases e with
    | finished => exact hc
    | forked => exact hc
    | readable r =>
      rw [step]
      split
      · trivial
      · next p' hread =>
        obtain ⟨-, hordered, hcontent⟩ := hsafe
        rw [← Pool.afterRead_of_readConnection hread] at hordered hcontent
        rw [← hcontent]
        exact scanConnection_kept hordered record

/-- For every connection, whatever the calls of `read` return and whatever becomes of its requests:
all stores of `read_connection` are in the buffer and the buffer is the queue, exactly if every
read meets the condition. -/
theorem inputBuffer_safe_iff (size numHeaders : ℕ) (mem : ℤ → UInt8) (events : List InputEvent) :
    Machine.Along (step size numHeaders) (EventSafe size) (.reading (.fresh mem) none []) events ↔
      Machine.Along (step size numHeaders) (EventFits size) (.reading (.fresh mem) none [])
        events :=
  Machine.along_iff_of_invariant (I := Kept size) (fun _ _ hc => eventSafe_iff hc)
    (fun _ _ hc hsafe => step_kept numHeaders hc hsafe)
    ⟨⟨le_rfl, le_rfl, zero_le _⟩, rfl⟩

/-- A zero is written in front of the buffer if the first read has to be repeated, and behind the
buffer if a read fills it; a read that has to be repeated takes away the last byte received. -/
theorem inputBuffer_unsafe :
    ¬ Machine.Along (step 4 1) (EventSafe 4) (.reading (.fresh fun _ => 1) none [])
        [.readable .again] ∧
      ¬ Machine.Along (step 4 1) (EventSafe 4) (.reading (.fresh fun _ => 1) none [])
        [.readable (.bytes [71, 69, 84, 32])] ∧
      ¬ Machine.Along (step 16 1) (EventSafe 16) (.reading (.fresh fun _ => 1) none [])
        [.readable (.bytes [71, 69]), .readable .again] := by
  refine ⟨fun h => ?_, fun h => ?_, fun h => ?_⟩
  · exact absurd (h.1.1 ⟨-1, 1⟩ (by decide)) (by decide)
  · exact absurd (h.1.1 ⟨4, 1⟩ (by decide)) (by decide)
  · exact absurd h.2.1.2.2 (by decide)

end InputConn

end Wbr1310.Httpd
