import Wbr1310.Httpd.UploadHandlers

/-!
# What is burnt was verified

`upload_image` checks an image and sets `flag` to 1; `check_upgrad` burns it at least four
seconds later. In between the image stays as it was checked if no data arrives for a request
with a boundary, on any connection. Such data is written over the image.
-/

namespace Wbr1310.Httpd

open Lib

variable {env : MathopdEnv} {s : Mathopd}

/-- The image of the last call of `upload_image` that set `flag` to 1. -/
def lastAccepted : List Entry → Option Passed
  | [] => none
  | .accepted p :: _ => some p
  | .access _ :: log => lastAccepted log
  | .burnt _ _ :: log => lastAccepted log

/-- What was just burnt is what was last accepted, in an allocated block. -/
def BurntAccepted : List Entry → Prop
  | .burnt p live :: log => live = true ∧ lastAccepted log = some p
  | _ => True

instance : DecidablePred BurntAccepted := fun log => by
  unfold BurntAccepted
  split <;> infer_instance

/-- Every image that was burnt is the one that was accepted, and an image that waits to be
burnt is so too: the same pointer and length, and the same bytes. -/
structure BurnsVerified (s : Mathopd) : Prop where
  burnt : Always BurntAccepted s.log
  waiting : s.upload.flag = 1 → lastAccepted s.log = some s.passed ∧ s.fileLive = true

/-- No data arrives for a request with a boundary while an image waits to be burnt. -/
def Undisturbed (s : Mathopd) : MathopdEvent → Prop
  | .readable cn (.bytes (_ :: _)) _ _ => match s.connections cn with
    | .multipart _ => s.upload.flag ≠ 1
    | .free | .reading | .writing => True
  | _ => True

instance (s : Mathopd) (e : MathopdEvent) : Decidable (Undisturbed s e) := by
  unfold Undisturbed
  rcases e with _ | _ | ⟨cn, _ | _ | ⟨_ | ⟨b, bs⟩⟩, _, _⟩ | _ | _ | _ | _ <;> try infer_instance
  dsimp only
  rcases s.connections cn <;> infer_instance

namespace BurnsVerified

theorem start : BurnsVerified .start where
  burnt := always_nil.mpr trivial
  waiting h := nomatch h

theorem of_idle {t : Mathopd} (h : BurnsVerified s) (hlog : t.log = s.log)
    (hflag : t.upload.flag ≠ 1) : BurnsVerified t where
  burnt := hlog ▸ h.burnt
  waiting hone := absurd hone hflag

theorem access (h : BurnsVerified s) (a : Access) : BurnsVerified (s.record (.access a)) where
  burnt := always_cons.mpr ⟨trivial, h.burnt⟩
  waiting := h.waiting

theorem fileLive_of_imageOk (h : Consistent s) (hok : s.imageOk env = true) :
    s.fileLive = true := by
  simp only [Mathopd.imageOk] at hok
  split at hok
  · next p hp =>
    simp only [Mathopd.fileLive, hp, Option.map_some, Option.getD_some]
    exact h.live p.block (h.file p hp)
  · exact absurd hok Bool.false_ne_true

theorem idle_of_empty (h : BurnsVerified s) (hc : Consistent s) (hdata : s.upload.data = none) :
    s.upload.flag ≠ 1 := by
  intro hflag
  have hlive := (h.waiting hflag).2
  simp only [Mathopd.fileLive] at hlive
  cases hptr : s.upload.filePtr with
  | none => simp [hptr] at hlive
  | some p => exact nomatch hdata.symm.trans (hc.file p hptr)

theorem kept (env : MathopdEnv) :
    Kept env (fun _ _ => True) fun s => Consistent s ∧ BurnsVerified s where
  connection hc h := ⟨(Consistent.kept env).connection hc h.1, h.2.burnt, h.2.waiting⟩
  stop h := ⟨(Consistent.kept env).stop h.1, h.2.burnt, h.2.waiting⟩
  elapse n h := ⟨(Consistent.kept env).elapse n h.1, h.2.burnt, h.2.waiting⟩
  free h := ⟨(Consistent.kept env).free h.1, h.2.of_idle rfl (show (0 : ℤ) ≠ 1 by decide)⟩
  acceptImage {s} hok h :=
    ⟨(Consistent.kept env).acceptImage hok h.1, always_cons.mpr ⟨trivial, h.2.burnt⟩,
      fun _ => ⟨rfl, show s.fileLive = true from fileLive_of_imageOk h.1 hok⟩⟩
  acceptConfig h :=
    ⟨(Consistent.kept env).acceptConfig h.1, h.2.of_idle rfl (show (2 : ℤ) ≠ 1 by decide)⟩
  burnCall {s} hflag h := by
    obtain ⟨haccepted, hlive⟩ := h.2.waiting hflag
    exact ⟨(Consistent.kept env).burnCall hflag h.1,
      always_cons.mpr ⟨⟨hlive, haccepted⟩, h.2.burnt⟩, h.2.waiting⟩
  burnDone h :=
    ⟨(Consistent.kept env).burnDone h.1, h.2.of_idle rfl (show (0 : ℤ) ≠ 1 by decide)⟩

theorem allocate (h : BurnsVerified s) (hc : Consistent s) (hdata : s.upload.data = none) (cl : ℤ)
    (body : List UInt8) (fresh : ℤ → UInt8) : BurnsVerified (s.allocate env cl body fresh) := by
  have hidle := h.idle_of_empty hc hdata
  simp only [Mathopd.allocate]
  split
  · exact (h.access _).of_idle rfl hidle
  · exact h.of_idle rfl hidle

/-- A read that brings no data or finds no image waiting. -/
theorem readBody (h : BurnsVerified s) (hc : Consistent s) {cn b : ℕ} {m : Multipart}
    {r : ReadResult} {o : Outcome} (hb : s.upload.data = some b)
    (hidle : s.readGot env m r ≠ [] → s.upload.flag ≠ 1) :
    Consistent (s.readBody env cn m b r o) ∧ BurnsVerified (s.readBody env cn m b r o) := by
  have hcall : Consistent (s.readCall env m b) := ⟨hc.live, hc.file, hc.empty⟩
  have hcalled : BurnsVerified (s.readCall env m b) := h.access _
  refine (kept env).readBody (fun _ _ => trivial) (fun _ _ => trivial) ⟨hcall, hcalled⟩
    fun hgot => ?_
  have hfilled : BurnsVerified (s.filled env m b r) := hcalled.of_idle rfl (hidle hgot)
  have hsame := sameBlocks_scanData env (s.filled env m b r) m.boundary
  exact ⟨⟨hc.filled hb r, hfilled⟩, (hc.filled hb r).scanData m.boundary,
    hfilled.of_idle hsame.log (hsame.flag ▸ hidle hgot)⟩

/-- An event that brings no data for a request with a boundary while an image waits. -/
theorem step (h : BurnsVerified s) (hc : Consistent s) {e : MathopdEvent} (hu : Undisturbed s e) :
    BurnsVerified (s.step env e) := by
  refine And.right ((kept env).step ⟨hc, h⟩ ?_)
  rintro cn m r malloc o s' m' b rfl hm hr
  obtain ⟨hb, hflag, -⟩ := Mathopd.reading_spec hr
  obtain ⟨hc', h'⟩ := (kept env).reading ⟨hc, h⟩ hr fun hdata cl body fresh =>
    ⟨hc.allocate hdata cl body fresh, h.allocate hc hdata cl body fresh⟩
  refine h'.readBody hc' hb fun hgot => ?_
  rw [hflag]
  cases r with
  | again | error => exact absurd rfl hgot
  | bytes bs =>
    cases bs with
    | nil => exact absurd List.take_nil hgot
    | cons byte bs => simpa only [Undisturbed, hm] using hu

end BurnsVerified

/-- In every run in which no data arrives for a request with a boundary while an image waits,
what is burnt is what was verified. -/
theorem runEvents_burnsVerified (env : MathopdEnv) (events : List MathopdEvent)
    (h : Machine.Along (Mathopd.step env) Undisturbed .start events) :
    BurnsVerified (Mathopd.runEvents env events) := by
  have hrun : Consistent (Mathopd.runEvents env events) ∧
      BurnsVerified (Mathopd.runEvents env events) :=
    Machine.run_invariant (I := fun s => Consistent s ∧ BurnsVerified s)
      (fun s e hs hu => ⟨hs.1.step e, hs.2.step hs.1 hu⟩) ⟨.start, .start⟩ h
  exact hrun.2

/-- `v2_image_check` of a device with the signature `wrgg19`, and a limit of 1000 bytes. -/
def wrgg19 : MathopdEnv where
  maxUploadsize := 1000
  imageCheck mem n := ((imageOf mem n).bind fun img =>
    v2ImageCheck constantDigest img [119, 114, 103, 103, 49, 57] (fun _ => 0) 96 3).any
      fun r => r.ret = 0

/-- An image with the signature `wrgg19` and one block without a payload. -/
def emptyBlock : List UInt8 :=
  [119, 114, 103, 103, 49, 57] ++ List.replicate 26 0 ++ [0x20, 0x02, 0x04, 0x20] ++
    [0x20, 0x02, 0x04, 0x20] ++ List.replicate 8 0 ++ [109, 116, 100] ++ List.replicate 29 0 ++
    List.replicate 16 0x11

/-- A body with the image, in parts with the boundary 66. -/
def imageBody : List UInt8 :=
  [66] ++ contentDisposition ++ filenameIs ++ [34, 97, 34, 13, 10, 13, 10] ++ emptyBlock ++
    [13, 10, 45, 45, 66]

def uploadAccepted : List MathopdEvent :=
  [.accept 0, .headers 0 [66] (some 137) [],
    .readable 0 (.bytes imageBody) (some fun _ => 0) (.internal .uploadImage)]

/-- An image that is accepted and burnt. -/
theorem runEvents_burnsVerified_uploadAccepted :
    Entry.burnt ⟨some ⟨0, 36⟩, 96, emptyBlock⟩ true ∈
        (Mathopd.runEvents wrgg19 (uploadAccepted ++ [.close 0, .tick 4, .poll true])).log ∧
      BurnsVerified (Mathopd.runEvents wrgg19 (uploadAccepted ++
        [.close 0, .tick 4, .poll true])) :=
  ⟨by decide +kernel, runEvents_burnsVerified wrgg19 _ (by decide +kernel)⟩

/-- Another request, without a Content-Length, sends 40 bytes before the image is burnt. -/
def overwrite : List MathopdEvent :=
  [.accept 1, .headers 1 [66] none [], .readable 1 (.bytes (List.replicate 40 88)) none .failed,
    .tick 4, .poll true]

/-- The bytes 88, 88, 88, 88 are burnt in place of the first four of the image. -/
theorem overwrite_not_burnsVerified :
    ¬ BurnsVerified (Mathopd.runEvents wrgg19 (uploadAccepted ++ overwrite)) :=
  fun h => absurd h.burnt (by decide +kernel)

end Wbr1310.Httpd
