import Wbr1310.Httpd.UploadSteps

/-!
# The body of an upload

While the body of a request arrives, the block of `upload_file` holds what came with the headers
and what every `read` has brought. This is so for a request within the limit that finds
`upload_file` empty.
-/

namespace Wbr1310.Httpd

open Lib Function Option

variable {env : MathopdEnv} {s : Mathopd}

theorem bytes_writeMem (mem : ℤ → UInt8) (i : ℤ) (bs : List UInt8) :
    bytes (writeMem mem i bs) i bs.length = bs := by
  refine bytes_eq_of_getElem? fun k hk => ?_
  have hin : i ≤ i + (k : ℤ) ∧ i + (k : ℤ) < i + bs.length := by omega
  have hpos : (i + (k : ℤ) - i).toNat = k := by omega
  rw [writeMem, if_pos hin, hpos, List.getElem?_eq_getElem hk, Option.getD_some]

theorem bytes_writeMem_of_le (mem : ℤ → UInt8) {i j : ℤ} {n : ℕ} (bs : List UInt8)
    (h : j + n ≤ i) : bytes (writeMem mem i bs) j n = bytes mem j n :=
  bytes_congr fun k _ hk => if_neg fun hin => by omega

theorem bytes_writeMem_of_ge (mem : ℤ → UInt8) {i j : ℤ} {n : ℕ} (bs : List UInt8)
    (h : i + bs.length ≤ j) : bytes (writeMem mem i bs) j n = bytes mem j n :=
  bytes_congr fun k _ hk => if_neg fun hin => by omega

/-- The block of the upload holds the bytes, and `length` is their number. -/
structure Holds (s : Mathopd) (b : ℕ) (own : List UInt8) : Prop where
  data : s.upload.data = some b
  length : s.upload.length = own.length
  bytes_eq : bytes (s.blocks b).mem 0 own.length = own

/-- A content length that is accepted. -/
structure WithinLimit (env : MathopdEnv) (cl : ℤ) : Prop where
  nonneg : 0 ≤ cl
  lt : cl < 2 ^ 31
  le : cl ≤ env.maxUploadsize

namespace WithinLimit

variable {cl : ℤ} (h : WithinLimit env cl)
include h

theorem not_overLimit : ¬ overLimit env cl := by
  have hnonneg := h.nonneg
  have hlt := h.lt
  have hle := h.le
  rw [overLimit]
  omega

theorem uploadSize_eq : uploadSize env cl = cl.toNat := by
  have hnonneg := h.nonneg
  have hlt := h.lt
  rw [uploadSize, if_neg h.not_overLimit]
  omega

theorem readSpan_eq {n : ℕ} (hn : n ≤ cl) : readSpan env cl n = ⟨n, (cl - n).toNat⟩ := by
  have hlt := h.lt
  rw [readSpan, if_neg h.not_overLimit]
  congr 1
  omega

theorem movedLength_eq {body : List UInt8} (hbody : body.length ≤ cl) :
    movedLength env cl body = body.length := by
  rw [movedLength, h.uploadSize_eq, if_pos (by omega)]

end WithinLimit

namespace Holds

variable {b : ℕ} {own : List UInt8}

theorem readCall (h : Holds s b own) (m : Multipart) : Holds (s.readCall env m b) b own :=
  ⟨h.data, h.length, h.bytes_eq⟩

theorem setConnection (h : Holds s b own) (cn : ℕ) (c : Connection) :
    Holds (s.setConnection cn c) b own :=
  ⟨h.data, h.length, h.bytes_eq⟩

theorem fill (h : Holds s b own) {got : List UInt8} (hlen : own.length + got.length < 2 ^ 31) :
    Holds (s.fill b own.length got) b (own ++ got) where
  data := h.data
  length := by
    have hsum : s.upload.length + got.length = ((own ++ got).length : ℤ) := by
      rw [h.length, List.length_append, Nat.cast_add]
    rw [Mathopd.fill]
    simp only
    rw [hsum, List.length_append]
    exact Int.bmod_eq_of_le (by omega) (by omega)
  bytes_eq := by
    simp only [Mathopd.fill, Function.update_self]
    rw [List.length_append, bytes_add, Int.zero_add, bytes_writeMem,
      bytes_writeMem_of_le _ _ (by omega), h.bytes_eq]

end Holds

theorem holds_allocate {cl : ℤ} (hcl : WithinLimit env cl) {body : List UInt8}
    (hbody : body.length ≤ cl) (hlength : s.upload.length = 0) (fresh : ℤ → UInt8) :
    Holds (s.allocate env cl body fresh) s.nextBlock body := by
  have hupload := allocate_upload env s cl body fresh hlength
  refine ⟨by rw [hupload], by rw [hupload, hcl.movedLength_eq hbody], ?_⟩
  rw [Mathopd.allocate]
  split
  · simp only [Function.update_self]
    exact bytes_writeMem fresh 0 body
  · next hmoved =>
    have hempty : body.length = 0 := by
      have hsize := hcl.uploadSize_eq
      have hnonneg := hcl.nonneg
      by_contra hne
      exact hmoved ⟨hne, by omega⟩
    rw [List.length_eq_zero_iff.mp hempty]
    rfl

namespace Mathopd

/-- The bytes that `scan_multipart` goes through, if it is called and the length suits it. -/
def parsedBody (env : MathopdEnv) (s : Mathopd) (m : Multipart) (b : ℕ) (r : ReadResult) :
    Option (List UInt8) :=
  let t := s.filled env m b r
  if s.Complete env m b r ∧ t.upload.length ≠ 0 ∧ t.upload.length % 2 ^ 32 < env.maxUploadsize then
    some (bytes (t.blocks b).mem 0 t.upload.length.toNat)
  else none

variable (env s) (cn : ℕ)

theorem closeConnection_connections :
    (s.closeConnection cn).connections = Function.update s.connections cn .free := by
  simp only [closeConnection]
  split <;> rfl

theorem allocate_connections (cl : ℤ) (body : List UInt8) (fresh : ℤ → UInt8) :
    (s.allocate env cl body fresh).connections = s.connections := by
  simp only [allocate]
  split <;> rfl

variable {cn}

theorem closeConnection_data (h : s.upload.flag = 0 ∨ s.upload.data = none) :
    (s.closeConnection cn).upload.data = none := by
  simp only [closeConnection]
  split
  · rfl
  · next hfree =>
    rcases h with hflag | hdata
    · exact not_isSome_iff_eq_none.mp fun hsome => hfree ⟨hflag, hsome⟩
    · exact hdata

/-- An event leaves the connections that it is not about as they are. -/
theorem handle_of_ne {cn' : ℕ} (hne : cn' ≠ cn) {e : MathopdEvent} (he : e.connection = some cn) :
    (s.handle env e).connections cn' = s.connections cn' := by
  have hkept : Kept env (fun c _ => cn' ≠ c) fun t => t.connections cn' = s.connections cn' :=
    { connection := fun hc h => (update_of_ne hc _ _).trans h
      stop := id
      elapse := fun _ => id
      free := id
      acceptImage := fun _ => id
      acceptConfig := id
      burnCall := fun _ => id
      burnDone := id }
  have hcn : ∀ c ∈ e.connection, cn' ≠ c := fun c hc => some.inj (he.symm.trans hc) ▸ hne
  refine hkept.handle rfl (fun c hc _ _ => hcn c hc) ?_ ?_
  · rintro c boundary contentLength body rfl
    exact hkept.connection (hcn c rfl) rfl
  · rintro c m r malloc o rfl -
    refine hkept.readMultipart (fun _ _ => hcn c rfl) rfl fun {s' m' b} hr => ?_
    have hs' : s'.connections cn' = s.connections cn' := by
      rcases reading_cases hr with ⟨rfl, -, -⟩ | ⟨n, fresh, -, -, -, -, rfl⟩
      · rfl
      · exact (update_of_ne (hcn c rfl) _ _).trans (by rw [allocate_connections])
    refine hkept.readBody (fun _ _ => hcn c rfl) (fun _ _ => hcn c rfl) hs' fun _ => ⟨hs', ?_⟩
    rw [(sameBlocks_scanData env _ _).connections]
    exact hs'

end Mathopd

/-- A call of `read` adds what it brings, up to the length of the body. -/
theorem Holds.filled {b : ℕ} {own : List UInt8} {m : Multipart} (h : Holds s b own)
    (hcl : WithinLimit env m.contentLength) (hown : own.length ≤ m.contentLength) (r : ReadResult) :
    Holds (s.filled env m b r) b (own ++ s.readGot env m r) ∧
      (own ++ s.readGot env m r).length ≤ m.contentLength := by
  have hspan : readSpan env m.contentLength s.upload.length =
      ⟨own.length, (m.contentLength - own.length).toNat⟩ := by
    rw [h.length]
    exact hcl.readSpan_eq hown
  have hgot : ((s.readGot env m r).length : ℤ) ≤ m.contentLength - own.length := by
    cases r with
    | again => exact Int.sub_nonneg_of_le hown
    | error => exact Int.sub_nonneg_of_le hown
    | bytes bs =>
      have htake := List.length_take_le (m.contentLength - own.length).toNat bs
      rw [Mathopd.readGot, hspan]
      simp only
      omega
  have hlt := hcl.lt
  constructor
  · rw [Mathopd.filled, hspan]
    exact (h.readCall m).fill (by omega)
  · rw [List.length_append]
    omega

theorem Holds.parsedBody {b : ℕ} {own : List UInt8} {m : Multipart} (h : Holds s b own)
    (hcl : WithinLimit env m.contentLength) (hown : own.length ≤ m.contentLength) {r : ReadResult}
    {bs : List UInt8} (hbs : s.parsedBody env m b r = some bs) : bs = own ++ s.readGot env m r := by
  have hfilled := (h.filled hcl hown r).1
  rw [Mathopd.parsedBody] at hbs
  split at hbs
  · obtain rfl := Option.some.inj hbs
    rw [hfilled.length, Int.toNat_natCast]
    exact hfilled.bytes_eq
  · cases hbs

end Wbr1310.Httpd
