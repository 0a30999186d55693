import Wbr1310.Httpd.UploadBody

/-!
# The bounds of the upload buffer

The block of `upload_file` has the size that the request which allocated it asked for, but
every request with a boundary reads into it, by its own `content_length`. If such requests come
one at a time, the block is that of the request that is read, and all destinations lie in it.
A second request breaks this.
-/

namespace Wbr1310.Httpd

open Lib

variable {env : MathopdEnv} {s t : Mathopd} {cn b : ℕ} {m : Multipart}

/-- Every destination was in the block, which was allocated, and `length` is at most the size
of the block. -/
structure InBounds (s : Mathopd) : Prop where
  accesses : ∀ a, Entry.access a ∈ s.log → a.span.Inside a.size ∧ a.live = true
  length : ∀ b, s.upload.data = some b → s.upload.length ≤ (s.blocks b).size

/-- Requests with a boundary come one at a time: the headers of one are complete while no other
connection has one and no block is left, its Content-Length is within the limit, and it is not
answered with a status, after which the connection would be read again. -/
def Sequential (env : MathopdEnv) (s : Mathopd) : MathopdEvent → Prop
  | .headers cn _ contentLength _ =>
    (∀ cn' m, cn' ≠ cn → s.connections cn' ≠ .multipart m) ∧ s.upload.data = none ∧
      ∀ n ∈ contentLength, 0 ≤ n ∧ n ≤ env.maxUploadsize
  | .readable _ _ _ o => ∀ cl, o ≠ .reply cl
  | .accept _ | .request _ _ | .close _ | .tick _ | .poll _ => True

/-- The block `b` has room for the body of a request, of which `length` bytes have arrived. -/
structure Room (env : MathopdEnv) (s : Mathopd) (m : Multipart) (b : ℕ) : Prop where
  limit : WithinLimit env m.contentLength
  nonneg : 0 ≤ s.upload.length
  le : s.upload.length ≤ m.contentLength
  size : m.contentLength ≤ (s.blocks b).size

/-- One connection at most has a request with a boundary, its Content-Length is within the limit,
and a block that is allocated has room for its body. -/
structure Sole (env : MathopdEnv) (s : Mathopd) : Prop where
  eq : ∀ {cn cn' m m'}, s.connections cn = .multipart m → s.connections cn' = .multipart m' →
    cn' = cn
  limit : ∀ {cn m}, s.connections cn = .multipart m →
    ∀ n ∈ m.inContentLength, 0 ≤ n ∧ n ≤ env.maxUploadsize
  room : ∀ {cn m b}, s.connections cn = .multipart m → s.upload.data = some b → Room env s m b

namespace Room

theorem of_same (h : Room env s m b) (hupload : t.upload = s.upload)
    (hblocks : t.blocks = s.blocks) : Room env t m b := by
  refine ⟨h.limit, ?_, ?_, ?_⟩
  · exact hupload ▸ h.nonneg
  · exact hupload ▸ h.le
  · exact hblocks ▸ h.size

theorem readSpan_eq (h : Room env s m b) :
    readSpan env m.contentLength s.upload.length =
      ⟨s.upload.length, (m.contentLength - s.upload.length).toNat⟩ := by
  obtain ⟨n, hn⟩ := Int.eq_ofNat_of_zero_le h.nonneg
  rw [hn]
  exact h.limit.readSpan_eq (hn ▸ h.le)

theorem readSpan_inside (h : Room env s m b) :
    (readSpan env m.contentLength s.upload.length).Inside (s.blocks b).size := by
  have hnonneg := h.nonneg
  have hle := h.le
  have hsize := h.size
  rw [h.readSpan_eq, Span.Inside]
  simp only
  omega

/-- What `read` brings is no more than what is missing. -/
theorem filled (h : Room env s m b) (r : ReadResult) : Room env (s.filled env m b r) m b := by
  have hnonneg := h.nonneg
  have hle := h.le
  have hlt := h.limit.lt
  have hgot : ((s.readGot env m r).length : ℤ) ≤ m.contentLength - s.upload.length := by
    cases r with
    | again | error => exact Int.sub_nonneg_of_le hle
    | bytes bs =>
      have htake := List.length_take_le (m.contentLength - s.upload.length).toNat bs
      rw [Mathopd.readGot, h.readSpan_eq]
      simp only
      omega
  have hlength : (s.filled env m b r).upload.length =
      s.upload.length + (s.readGot env m r).length := by
    change (s.upload.length + (s.readGot env m r).length).bmod (2 ^ 32) = _
    exact Int.bmod_eq_of_le (by omega) (by omega)
  refine ⟨h.limit, by omega, by omega, ?_⟩
  exact h.size.trans (Int.le_of_eq (congrArg Nat.cast (size_update ..).1.symm))

theorem allocate {n : ℤ} (hn : 0 ≤ n ∧ n ≤ env.maxUploadsize) (hlength : s.upload.length = 0)
    (body : List UInt8) (fresh : ℤ → UInt8) :
    Room env (s.allocate env (atoi n) body fresh) { m with contentLength := atoi n }
      s.nextBlock := by
  have hlimit : WithinLimit env (atoi n) := by
    constructor <;>
    · rw [atoi]
      omega
  have hmoved : movedLength env (atoi n) body ≤ uploadSize env (atoi n) := by
    rw [movedLength]
    split <;> omega
  have hsize := hlimit.uploadSize_eq
  have hnonneg := hlimit.nonneg
  have hupload := allocate_upload env s (atoi n) body fresh hlength
  refine ⟨hlimit, ?_, ?_, ?_⟩
  · rw [hupload]
    exact Int.natCast_nonneg _
  · rw [hupload]
    simp only
    omega
  · rw [allocate_size]
    simp only
    omega

end Room

namespace Sole

/-- No more requests with a boundary are there than before, and the block is the same or is
freed. -/
theorem fewer (h : Sole env s)
    (hconn : ∀ {cn m}, t.connections cn = .multipart m → s.connections cn = .multipart m)
    (hupload : ∀ {b}, t.upload.data = some b → s.upload.data = some b ∧
      t.upload.length = s.upload.length ∧ (t.blocks b).size = (s.blocks b).size) : Sole env t where
  eq hm hm' := h.eq (hconn hm) (hconn hm')
  limit hm := h.limit (hconn hm)
  room hm hb := by
    obtain ⟨hdata, hlength, hsize⟩ := hupload hb
    obtain ⟨hlimit, hnonneg, hle, hroom⟩ := h.room (hconn hm) hdata
    exact ⟨hlimit, hlength ▸ hnonneg, hlength ▸ hle, hsize ▸ hroom⟩

theorem kept (env : MathopdEnv) : Kept env (fun _ c => ∀ m, c ≠ .multipart m) (Sole env) where
  connection {s cn c} hc h := by
    refine h.fewer (fun {cn' m} hm => ?_) fun hb => ⟨hb, rfl, rfl⟩
    rcases eq_or_ne cn' cn with rfl | hne
    · exact absurd ((Function.update_self _ _ _).symm.trans hm) (hc m)
    · exact (Function.update_of_ne hne _ _).symm.trans hm
  stop h := h.fewer id fun hb => ⟨hb, rfl, rfl⟩
  elapse _ h := h.fewer id fun hb => ⟨hb, rfl, rfl⟩
  free h := h.fewer id nofun
  acceptImage _ h := h.fewer id fun hb => ⟨hb, rfl, rfl⟩
  acceptConfig h := h.fewer id fun hb => ⟨hb, rfl, rfl⟩
  burnCall _ h := h.fewer id fun hb => ⟨hb, rfl, rfl⟩
  burnDone h := h.fewer id fun hb => ⟨hb, rfl, rfl⟩

/-- Only the connection `cn` has a request with a boundary, and there is room for it. -/
theorem of_only (cn : ℕ) (m : Multipart)
    (honly : ∀ {cn' m'}, t.connections cn' = .multipart m' → cn' = cn ∧ m' = m)
    (hlimit : ∀ n ∈ m.inContentLength, 0 ≤ n ∧ n ≤ env.maxUploadsize)
    (hroom : ∀ b, t.upload.data = some b → Room env t m b) : Sole env t where
  eq hm hm' := (honly hm').1.trans (honly hm).1.symm
  limit hm := (honly hm).2 ▸ hlimit
  room hm hb := (honly hm).2 ▸ hroom _ hb

theorem readBody (h : Sole env s) (hm : s.connections cn = .multipart m)
    (hb : s.upload.data = some b) (r : ReadResult) {o : Outcome} (ho : ∀ cl, o ≠ .reply cl) :
    Sole env (s.readBody env cn m b r o) := by
  have hcall : Sole env (s.readCall env m b) :=
    ⟨h.eq, h.limit, fun hm hb => (h.room hm hb).of_same rfl rfl⟩
  have hfilled : Sole env (s.filled env m b r) := by
    refine of_only cn m (fun {cn' m'} hm' => ?_) (h.limit hm) fun b' hb' => ?_
    · obtain rfl := h.eq hm hm'
      exact ⟨rfl, (Connection.multipart.inj (hm.symm.trans hm')).symm⟩
    · obtain rfl := Option.some.inj (hb.symm.trans hb')
      exact (h.room hm hb).filled r
  refine (kept env).readBody (fun _ hc => hc) (fun cl hcl => absurd hcl (ho cl)) hcall
    fun _ => ⟨hfilled, ?_⟩
  have hsame := sameBlocks_scanData env (s.filled env m b r) m.boundary
  exact hfilled.fewer (fun hm => hsame.connections ▸ hm)
    fun hb => ⟨hsame.data ▸ hb, hsame.length, hsame.size _⟩

theorem update_eq {connections : ℕ → Connection} {cn cn' : ℕ} {m m' : Multipart}
    (h : Function.update connections cn (.multipart m) cn' = .multipart m') :
    cn' = cn ∧ m' = m ∨ cn' ≠ cn ∧ connections cn' = .multipart m' := by
  rcases eq_or_ne cn' cn with rfl | hne
  · exact .inl ⟨rfl, (Connection.multipart.inj ((Function.update_self _ _ _).symm.trans h)).symm⟩
  · exact .inr ⟨hne, (Function.update_of_ne hne _ _).symm.trans h⟩

/-- When `read` is called, there is room for the request that is read. -/
theorem reading (h : Sole env s) (hc : Consistent s) {m' : Multipart}
    {malloc : Option (ℤ → UInt8)} (hm : s.connections cn = .multipart m)
    (hr : s.reading env cn m malloc = some (t, m', b)) :
    Sole env t ∧ t.connections cn = .multipart m' := by
  rcases Mathopd.reading_cases hr with ⟨rfl, rfl, -⟩ | ⟨n, fresh, hdata, hn, rfl, rfl, rfl⟩
  · exact ⟨h, hm⟩
  have hlimit := h.limit hm
  refine ⟨of_only cn { m with contentLength := atoi n } (fun {cn' m'} hm' => ?_) hlimit
    fun b hb => ?_, Function.update_self _ _ _⟩
  · obtain heq | ⟨hne, hother⟩ := update_eq hm'
    · exact heq
    · rw [Mathopd.allocate_connections] at hother
      exact absurd (h.eq hm hother) hne
  · have hdata' := (Mathopd.allocate_data env s (atoi n) m.body fresh).1
    obtain rfl := Option.some.inj (hdata'.symm.trans hb)
    exact (Room.allocate (hlimit n hn) (hc.empty hdata) m.body fresh).of_same rfl rfl

/-- Requests that come one at a time find room. -/
theorem step (h : Sole env s) (hc : Consistent s) {e : MathopdEvent} (he : Sequential env s e) :
    Sole env (s.step env e) := by
  rw [Mathopd.step]
  split
  swap
  · exact h
  refine (kept env).handle h (fun _ _ _ hc => hc) ?_ ?_
  · rintro cn boundary contentLength body rfl
    obtain ⟨halone, hdata, hlimit⟩ := he
    refine of_only cn ⟨boundary, -1, contentLength, body⟩ (fun {cn' m'} hm' => ?_) hlimit
      fun b hb => absurd (hb.symm.trans hdata) (Option.some_ne_none b)
    obtain heq | ⟨hne, hother⟩ := update_eq hm'
    · exact heq
    · exact absurd hother (halone cn' m' hne)
  · rintro cn m r malloc o rfl hm
    refine (kept env).readMultipart (fun _ hc => hc) h fun hr => ?_
    obtain ⟨h', hm'⟩ := h.reading hc hm hr
    exact h'.readBody hm' (Mathopd.reading_spec hr).1 r he

end Sole

namespace InBounds

theorem start : InBounds .start where
  accesses _ ha := nomatch ha
  length _ hb := nomatch hb

theorem kept (env : MathopdEnv) : Kept env (fun _ _ => True) InBounds where
  connection _ h := ⟨h.accesses, h.length⟩
  stop h := ⟨h.accesses, h.length⟩
  elapse _ h := ⟨h.accesses, h.length⟩
  free h := ⟨h.accesses, fun _ hb => (nomatch hb)⟩
  acceptImage _ h := ⟨fun a ha => h.accesses a ((List.mem_cons.mp ha).resolve_left nofun), h.length⟩
  acceptConfig h := ⟨h.accesses, h.length⟩
  burnCall _ h := ⟨fun a ha => h.accesses a ((List.mem_cons.mp ha).resolve_left nofun), h.length⟩
  burnDone h := ⟨h.accesses, h.length⟩

/-- A read into a block that has room for the body. -/
theorem readBody (h : InBounds s) (hc : Consistent s) {r : ReadResult} {o : Outcome}
    (hb : s.upload.data = some b) (hroom : Room env s m b) :
    InBounds (s.readBody env cn m b r o) := by
  have hcall : InBounds (s.readCall env m b) := by
    refine ⟨fun a ha => ?_, h.length⟩
    rcases List.mem_cons.mp ha with heq | ha
    · obtain rfl := Entry.access.inj heq
      exact ⟨hroom.readSpan_inside, hc.live b hb⟩
    · exact h.accesses a ha
  have hfilled : InBounds (s.filled env m b r) := by
    refine ⟨hcall.accesses, fun b' hb' => ?_⟩
    obtain rfl : b = b' := Option.some.inj (hb.symm.trans hb')
    exact (hroom.filled r).le.trans (hroom.filled r).size
  refine (kept env).readBody (fun _ _ => trivial) (fun _ _ => trivial) hcall fun _ => ⟨hfilled, ?_⟩
  have hsame := sameBlocks_scanData env (s.filled env m b r) m.boundary
  refine ⟨fun a ha => hfilled.accesses a (hsame.log ▸ ha), fun b' hb' => ?_⟩
  rw [hsame.length, hsame.size]
  exact hfilled.length b' (hsame.data ▸ hb')

theorem allocate (h : InBounds s) (hc : Consistent s) (hdata : s.upload.data = none) (cl : ℤ)
    (body : List UInt8) (fresh : ℤ → UInt8) : InBounds (s.allocate env cl body fresh) := by
  constructor
  · intro a ha
    simp only [Mathopd.allocate] at ha
    split at ha
    · next hmoved =>
      rcases List.mem_cons.mp ha with heq | ha
      · obtain rfl := Entry.access.inj heq
        refine ⟨⟨Int.le_refl 0, ?_⟩, rfl⟩
        rw [Int.zero_add]
        exact Int.ofNat_le.mpr hmoved.2
      · exact h.accesses a ha
    · exact h.accesses a ha
  · intro b hb
    rw [allocate_upload env s cl body fresh (hc.empty hdata)] at hb ⊢
    obtain rfl := Option.some.inj hb
    rw [allocate_size]
    change ((movedLength env cl body : ℕ) : ℤ) ≤ uploadSize env cl
    simp only [movedLength]
    split <;> omega

/-- No event writes outside the block that is read into. -/
theorem step (h : InBounds s) (hc : Consistent s) (hs : Sole env s) (e : MathopdEvent) :
    InBounds (s.step env e) := by
  refine (kept env).step h fun _ hm hr => ?_
  obtain ⟨hs', hm'⟩ := hs.reading hc hm hr
  have hb := (Mathopd.reading_spec hr).1
  exact ((kept env).reading h hr (h.allocate hc)).readBody (hc.reading hr) hb (hs'.room hm' hb)

end InBounds

/-- In every run in which requests with a boundary come one at a time, all destinations lie in
the allocated block, and `length` is at most its size. -/
theorem runEvents_inBounds (env : MathopdEnv) (events : List MathopdEvent)
    (h : Machine.Along (Mathopd.step env) (Sequential env) .start events) :
    InBounds (Mathopd.runEvents env events) := by
  have hstart : Sole env .start :=
    ⟨fun hm => (nomatch hm), fun hm => (nomatch hm), fun hm => nomatch hm⟩
  obtain ⟨-, -, hbounds⟩ := Machine.run_invariant
    (I := fun s => Consistent s ∧ Sole env s ∧ InBounds s)
    (fun s e ⟨hc, hs, hb⟩ he => ⟨hc.step e, hs.step hc he, hb.step hc hs e⟩)
    ⟨.start, hstart, .start⟩ h
  exact hbounds

def smallLimit : MathopdEnv := ⟨1000, fun _ _ => false⟩

/-- A request of ten bytes, two of which come with its headers; another connection asks for
a page meanwhile. -/
def oneUpload : List MathopdEvent :=
  [.accept 0, .headers 0 [66] (some 10) [1, 2], .accept 1,
    .readable 0 (.bytes [3, 4, 5]) (some fun _ => 0) .other, .request 1 .other,
    .readable 0 (.bytes [6, 7, 8, 9, 10, 11]) none .other]

/-- One small upload. -/
theorem runEvents_inBounds_oneUpload :
    Entry.access ⟨⟨5, 5⟩, 10, true⟩ ∈ (Mathopd.runEvents smallLimit oneUpload).log ∧
      InBounds (Mathopd.runEvents smallLimit oneUpload) := by
  refine ⟨by decide +kernel, runEvents_inBounds smallLimit oneUpload ?_⟩
  refine ⟨trivial, ⟨fun cn' m hne => ?_, rfl, ?_⟩, trivial, nofun, trivial, nofun, trivial⟩
  · intro hm
    exact nomatch (Function.update_of_ne hne _ _).symm.trans hm
  · rintro n ⟨⟩
    decide

/-- A request of ten bytes has got one of them when a second request, without a
Content-Length, is read. -/
def secondUpload : List MathopdEvent :=
  [.accept 0, .headers 0 [66] (some 10) [], .readable 0 (.bytes [1]) (some fun _ => 0) .other,
    .accept 1, .headers 1 [66] none [], .readable 1 (.bytes (List.replicate 20 65)) none .other]

/-- The second request reads up to 1000 bytes into the block of ten bytes. -/
theorem secondUpload_not_inBounds : ¬ InBounds (Mathopd.runEvents smallLimit secondUpload) := by
  intro h
  have hmem : Entry.access ⟨⟨0, 1000⟩, 10, true⟩ ∈
      (Mathopd.runEvents smallLimit secondUpload).log := by decide +kernel
  exact absurd (h.accesses _ hmem).1 (by decide)

end Wbr1310.Httpd
