import Wbr1310.Httpd.Upload

/-!
# What an event does to the upload

`Kept` lists the changes of the server outside `read_multipart`; what they keep, every event
keeps, provided `read_multipart` does. `Consistent` is the first such property:
`upload_file` never points to a block that was freed.
-/

namespace Wbr1310.Httpd

open Lib

/-- The connection that an event is about. -/
def MathopdEvent.connection : MathopdEvent → Option ℕ
  | .accept cn => some cn
  | .headers cn _ _ _ => some cn
  | .readable cn _ _ _ => some cn
  | .request cn _ => some cn
  | .close cn => some cn
  | .tick _ => none
  | .poll _ => none

variable {env : MathopdEnv} {I : Mathopd → Prop} {s s' t : Mathopd}

namespace Mathopd

section

variable (env : MathopdEnv) (s : Mathopd) (m : Multipart) (b : ℕ) (r : ReadResult)

/-- What `read` is called with in `read_multipart`: the state, the request and the block. -/
def reading (cn : ℕ) (m : Multipart) (malloc : Option (ℤ → UInt8)) :
    Option (Mathopd × Multipart × ℕ) :=
  match s.upload.data with
  | some b => some (s, m, b)
  | none => match m.inContentLength, malloc with
    | some n, some fresh =>
      let m' := { m with contentLength := atoi n }
      some ((s.allocate env (atoi n) m.body fresh).setConnection cn (.multipart m'), m',
        s.nextBlock)
    | none, _ => none
    | some _, none => none

/-- The bytes that `read` brings. -/
def readGot : ReadResult → List UInt8
  | .again => []
  | .error => []
  | .bytes bs => bs.take (readSpan env m.contentLength s.upload.length).length

def filled : Mathopd :=
  (s.readCall env m b).fill b (readSpan env m.contentLength s.upload.length).start
    (s.readGot env m r)

def Complete : Prop :=
  s.readGot env m r ≠ [] ∧ m.contentLength ≤ (s.filled env m b r).upload.length

end

instance (env : MathopdEnv) (s : Mathopd) (m : Multipart) (b : ℕ) (r : ReadResult) :
    Decidable (Complete env s m b r) := inferInstanceAs (Decidable (_ ∧ _))

theorem readMultipart_cases (env : MathopdEnv) (s : Mathopd) (cn : ℕ) (m : Multipart)
    (r : ReadResult) (malloc : Option (ℤ → UInt8)) (o : Outcome) :
    (∃ s' m' b, s.reading env cn m malloc = some (s', m', b) ∧
        s.readMultipart env cn m r malloc o = s'.readBody env cn m' b r o) ∨
      s.reading env cn m malloc = none ∧ s.upload.data = none ∧
        (s.readMultipart env cn m r malloc o = { s with running := false } ∨
          malloc = none ∧ s.readMultipart env cn m r malloc o = s.closeConnection cn) := by
  simp only [reading, readMultipart]
  cases s.upload.data with
  | some b => exact .inl ⟨s, m, b, rfl, rfl⟩
  | none =>
    cases m.inContentLength with
    | none => exact .inr ⟨rfl, rfl, .inl rfl⟩
    | some n =>
      cases malloc with
      | none => exact .inr ⟨rfl, rfl, .inr ⟨rfl, rfl⟩⟩
      | some fresh => exact .inl ⟨_, _, _, rfl, rfl⟩

/-- What comes of a call of `read`. -/
theorem readBody_cases (env : MathopdEnv) (s : Mathopd) (cn : ℕ) (m : Multipart) (b : ℕ)
    (r : ReadResult) (o : Outcome) :
    (r = .again ∧ s.readBody env cn m b r o = s.readCall env m b) ∨
      (r ≠ .again ∧ s.readGot env m r = [] ∧
        s.readBody env cn m b r o = (s.readCall env m b).closeConnection cn) ∨
      (s.readGot env m r ≠ [] ∧ ¬ s.Complete env m b r ∧
        s.readBody env cn m b r o = s.filled env m b r) ∨
      (s.Complete env m b r ∧
        s.readBody env cn m b r o = (s.filled env m b r).scanMultipart env cn m o) := by
  cases r with
  | again => exact .inl ⟨rfl, rfl⟩
  | error => exact .inr (.inl ⟨nofun, rfl, rfl⟩)
  | bytes bs =>
    by_cases hgot : s.readGot env m (.bytes bs) = []
    · exact .inr (.inl ⟨nofun, hgot, if_pos hgot⟩)
    · by_cases hcomplete : s.Complete env m b (.bytes bs)
      · refine .inr (.inr (.inr ⟨hcomplete, ?_⟩))
        exact (if_neg hgot).trans (if_pos hcomplete.2)
      · refine .inr (.inr (.inl ⟨hgot, hcomplete, ?_⟩))
        exact (if_neg hgot).trans (if_neg fun hlen => hcomplete ⟨hgot, hlen⟩)

variable {cn b : ℕ} {m m' : Multipart} {malloc : Option (ℤ → UInt8)}

/-- `read` is called with the block that is there, or with a new one. -/
theorem reading_cases (h : s.reading env cn m malloc = some (s', m', b)) :
    (s' = s ∧ m' = m ∧ s.upload.data = some b) ∨
      ∃ n fresh, s.upload.data = none ∧ m.inContentLength = some n ∧ b = s.nextBlock ∧
        m' = { m with contentLength := atoi n } ∧
        s' = (s.allocate env (atoi n) m.body fresh).setConnection cn (.multipart m') := by
  simp only [reading] at h
  split at h
  · next hdata =>
    obtain ⟨rfl, rfl, rfl⟩ : s = s' ∧ m = m' ∧ _ = b := by simpa using h
    exact .inl ⟨rfl, rfl, hdata⟩
  · next hdata =>
    split at h
    · next n fresh hn =>
      obtain ⟨rfl, rfl, rfl⟩ : _ = s' ∧ _ = m' ∧ _ = b := by simpa using h
      exact .inr ⟨n, fresh, hdata, hn, rfl, rfl, rfl⟩
    all_goals cases h

theorem allocate_data (env : MathopdEnv) (s : Mathopd) (cl : ℤ) (body : List UInt8)
    (fresh : ℤ → UInt8) : (s.allocate env cl body fresh).upload.data = some s.nextBlock ∧
      (s.allocate env cl body fresh).upload.flag = s.upload.flag := by
  simp only [allocate]
  split <;> exact ⟨rfl, rfl⟩

theorem reading_spec (h : s.reading env cn m malloc = some (s', m', b)) :
    s'.upload.data = some b ∧ s'.upload.flag = s.upload.flag ∧
      (s.connections cn = .multipart m → s'.connections cn = .multipart m') := by
  rcases reading_cases h with ⟨rfl, rfl, hdata⟩ | ⟨n, fresh, -, -, rfl, -, rfl⟩
  · exact ⟨hdata, rfl, id⟩
  · obtain ⟨hdata, hflag⟩ := allocate_data env s (atoi n) m.body fresh
    exact ⟨hdata, hflag, fun _ => Function.update_self _ _ _⟩

end Mathopd

/-- A property is kept by every change outside `read_multipart` that gives the connections only
states that are allowed. -/
structure Kept (env : MathopdEnv) (Allowed : ℕ → Connection → Prop) (I : Mathopd → Prop) :
    Prop where
  connection : ∀ {s cn c}, Allowed cn c → I s → I (s.setConnection cn c)
  stop : ∀ {s}, I s → I { s with running := false }
  elapse : ∀ {s} (n : ℕ), I s → I { s with now := s.now + n }
  free : ∀ {s}, I s → I s.freeUpload
  acceptImage : ∀ {s}, s.imageOk env = true → I s → I s.acceptImage
  acceptConfig : ∀ {s}, I s → I s.acceptConfig
  burnCall : ∀ {s}, s.upload.flag = 1 → I s → I s.burnCall
  burnDone : ∀ {s}, I s → I s.burnDone

namespace Kept

section Connection

variable {Allowed : ℕ → Connection → Prop} {cn : ℕ} {m : Multipart} {r : ReadResult}
  {malloc : Option (ℤ → UInt8)} {o : Outcome} (h : Kept env Allowed I)
include h

theorem processInternal (i : Internal) (hs : I s) : I (s.processInternal env i) := by
  cases i with
  | uploadImage =>
    simp only [Mathopd.processInternal]
    split
    · next hok => exact h.acceptImage hok hs
    · exact h.free hs
  | uploadConfig ok =>
    simp only [Mathopd.processInternal]
    split
    · exact h.stop hs
    · split
      · exact h.acceptConfig hs
      · exact h.free hs
  | other => exact h.free hs

theorem checkUpgrad (burnOk : Bool) (hs : I s) : I (s.checkUpgrad burnOk) := by
  simp only [Mathopd.checkUpgrad]
  split
  · exact hs
  · split
    · next hflag =>
      split
      · exact h.burnDone (h.burnCall hflag hs)
      · exact h.burnCall hflag hs
    · exact hs

variable (hplain : ∀ c, (∀ m, c ≠ .multipart m) → Allowed cn c)
include hplain

theorem closeConnection (hs : I s) : I (s.closeConnection cn) := by
  simp only [Mathopd.closeConnection]
  split
  · exact h.connection (hplain .free nofun) (h.free hs)
  · exact h.connection (hplain .free nofun) hs

theorem finishRequest (o : Outcome) (hs : I s) : I (s.finishRequest env cn o) := by
  have hwriting := hplain .writing nofun
  cases o with
  | internal i => exact h.connection hwriting (h.processInternal i hs)
  | reply contentLength => exact h.connection hwriting hs
  | other => exact h.connection hwriting hs
  | failed => exact h.closeConnection hplain hs

theorem readMultipart (hs : I s) (hread : ∀ {s' m' b},
      s.reading env cn m malloc = some (s', m', b) → I (s'.readBody env cn m' b r o)) :
    I (s.readMultipart env cn m r malloc o) := by
  rcases Mathopd.readMultipart_cases env s cn m r malloc o with
    ⟨s', m', b, hr, heq⟩ | ⟨-, -, heq | ⟨-, heq⟩⟩
  · exact heq ▸ hread hr
  · exact heq ▸ h.stop hs
  · exact heq ▸ h.closeConnection hplain hs

variable (hreply : ∀ cl, o = .reply cl → Allowed cn (.multipart { m with contentLength := cl }))
include hreply

theorem finishMultipart (hs : I s) : I (s.finishMultipart env cn m o) := by
  have hwriting := hplain .writing nofun
  cases o with
  | internal i => exact h.connection hwriting (h.processInternal i hs)
  | reply contentLength => exact h.connection (hreply contentLength rfl) hs
  | other => exact h.connection hwriting hs
  | failed => exact h.closeConnection hplain hs

theorem readBody {b : ℕ} (hcall : I (s.readCall env m b))
    (hfilled : s.readGot env m r ≠ [] →
      I (s.filled env m b r) ∧ I ((s.filled env m b r).scanData env m.boundary)) :
    I (s.readBody env cn m b r o) := by
  rcases Mathopd.readBody_cases env s cn m b r o with
    ⟨-, heq⟩ | ⟨-, -, heq⟩ | ⟨hgot, -, heq⟩ | ⟨hcomplete, heq⟩
  · exact heq ▸ hcall
  · exact heq ▸ h.closeConnection hplain hcall
  · exact heq ▸ (hfilled hgot).1
  · exact heq ▸ h.finishMultipart hplain hreply (hfilled hcomplete.1).2

end Connection

/-- What the parts of an event keep, the event keeps. -/
theorem handle {Allowed : ℕ → Connection → Prop} (h : Kept env Allowed I) {e : MathopdEvent}
    (hs : I s) (hplain : ∀ cn ∈ e.connection, ∀ c, (∀ m, c ≠ .multipart m) → Allowed cn c)
    (hheaders : ∀ {cn boundary contentLength body}, e = .headers cn boundary contentLength body →
      I (s.setConnection cn (.multipart ⟨boundary, -1, contentLength, body⟩)))
    (hread : ∀ {cn m r malloc o}, e = .readable cn r malloc o → s.connections cn = .multipart m →
      I (s.readMultipart env cn m r malloc o)) :
    I (s.handle env e) := by
  cases e with
  | accept cn =>
    simp only [Mathopd.handle]
    split
    · exact h.connection (hplain cn rfl .reading nofun) hs
    · exact h.connection (hplain cn rfl .reading nofun) hs
    all_goals exact hs
  | headers cn boundary contentLength body =>
    simp only [Mathopd.handle]
    split
    · exact hheaders rfl
    all_goals exact hs
  | readable cn r malloc o =>
    simp only [Mathopd.handle]
    split
    · next m hm => exact hread rfl hm
    all_goals exact hs
  | request cn o =>
    simp only [Mathopd.handle]
    split
    · exact h.finishRequest (hplain cn rfl) o hs
    all_goals exact hs
  | close cn =>
    simp only [Mathopd.handle]
    split
    · exact hs
    all_goals exact h.closeConnection (hplain cn rfl) hs
  | tick seconds => exact h.elapse seconds hs
  | poll burnOk =>
    simp only [Mathopd.handle]
    split
    · exact h.checkUpgrad burnOk hs
    · exact hs

section Everywhere

variable (h : Kept env (fun _ _ => True) I)
include h

/-- What says nothing about the connections is kept by an event if a call of `read` keeps it. -/
theorem step {e : MathopdEvent} (hs : I s)
    (hread : ∀ {cn m r malloc o s' m' b}, e = .readable cn r malloc o →
      s.connections cn = .multipart m → s.reading env cn m malloc = some (s', m', b) →
        I (s'.readBody env cn m' b r o)) :
    I (s.step env e) := by
  rw [Mathopd.step]
  split
  · exact h.handle hs (fun _ _ _ _ => trivial) (fun _ => h.connection trivial hs) fun he hm =>
      h.readMultipart (fun _ _ => trivial) hs fun hr => hread he hm hr
  · exact hs

theorem reading {cn b : ℕ} {m m' : Multipart} {malloc : Option (ℤ → UInt8)} (hs : I s)
    (hr : s.reading env cn m malloc = some (s', m', b))
    (hallocate : s.upload.data = none → ∀ cl body fresh, I (s.allocate env cl body fresh)) :
    I s' := by
  rcases Mathopd.reading_cases hr with ⟨rfl, -, -⟩ | ⟨n, fresh, hdata, -, -, -, rfl⟩
  · exact hs
  · exact h.connection trivial (hallocate hdata _ _ fresh)

end Everywhere

end Kept

/-- The block of the upload is allocated and the image lies in it; without a block nothing
was read. -/
structure Consistent (s : Mathopd) : Prop where
  live : ∀ b, s.upload.data = some b → (s.blocks b).live = true
  file : ∀ p, s.upload.filePtr = some p → s.upload.data = some p.block
  empty : s.upload.data = none → s.upload.length = 0

theorem Consistent.start : Consistent .start where
  live _ h := nomatch h
  file _ h := nomatch h
  empty _ := rfl

theorem scanPart_file {boundary : List UInt8} {b : ℕ} {bufEnd pEnd : ℤ} {s : ScanState}
    {p : Ptr} (h : (scanPart boundary b bufEnd pEnd s).filePtr = some p) :
    s.filePtr = some p ∨ p.block = b := by
  simp only [scanPart, scanFilename] at h
  split at h
  · exact .inl h
  · split at h
    · exact .inl h
    · split at h
      · exact .inl h
      · split at h
        · exact .inl h
        · exact .inr (congrArg Ptr.block (Option.some.inj h)).symm

theorem scanFrom_file {boundary : List UInt8} {b n : ℕ} {bufEnd : ℤ} {s : ScanState}
    {p : Ptr} (h : (scanFrom boundary b bufEnd n s).filePtr = some p) :
    s.filePtr = some p ∨ p.block = b := by
  induction n generalizing s with
  | zero => exact .inl h
  | succ n ih =>
    simp only [scanFrom] at h
    split at h
    · exact .inl h
    · rcases ih h with hpart | hb
      · exact scanPart_file hpart
      · exact .inr hb

/-- A scan changes what is said about the file and the contents of the block. -/
theorem scanData_eq (env : MathopdEnv) (s : Mathopd) (boundary : List UInt8) :
    s.scanData env boundary = s ∨
      ∃ b filePtr fileName fileLength mem, s.upload.data = some b ∧
        (∀ p, filePtr = some p → s.upload.filePtr = some p ∨ p.block = b) ∧
        s.scanData env boundary =
          { s with
            upload := { s.upload with
              filePtr := filePtr
              fileName := fileName
              fileLength := fileLength }
            blocks := Function.update s.blocks b { s.blocks b with mem := mem } } := by
  simp only [Mathopd.scanData]
  split
  · exact .inl rfl
  · next b hb =>
    split
    · exact .inr ⟨b, _, _, _, _, hb, fun p => scanFrom_file, rfl⟩
    · exact .inl rfl

/-- Only the contents of the blocks and what is said about the file are changed. -/
structure SameBlocks (s t : Mathopd) : Prop where
  connections : t.connections = s.connections
  data : t.upload.data = s.upload.data
  length : t.upload.length = s.upload.length
  flag : t.upload.flag = s.upload.flag
  log : t.log = s.log
  size : ∀ b, (t.blocks b).size = (s.blocks b).size
  live : ∀ b, (t.blocks b).live = (s.blocks b).live

theorem size_update (blocks : ℕ → HeapBlock) (a b : ℕ) (mem : ℤ → UInt8) :
    (Function.update blocks a { blocks a with mem := mem } b).size = (blocks b).size ∧
      (Function.update blocks a { blocks a with mem := mem } b).live = (blocks b).live := by
  rcases eq_or_ne b a with rfl | hne
  · rw [Function.update_self]
    exact ⟨rfl, rfl⟩
  · rw [Function.update_of_ne hne]
    exact ⟨rfl, rfl⟩

theorem sameBlocks_scanData (env : MathopdEnv) (s : Mathopd) (boundary : List UInt8) :
    SameBlocks s (s.scanData env boundary) := by
  rcases scanData_eq env s boundary with heq | ⟨b, ptr, name, len, mem, -, -, heq⟩
  · rw [heq]
    exact ⟨rfl, rfl, rfl, rfl, rfl, fun _ => rfl, fun _ => rfl⟩
  · rw [heq]
    exact ⟨rfl, rfl, rfl, rfl, rfl, fun b' => (size_update s.blocks b b' mem).1,
      fun b' => (size_update s.blocks b b' mem).2⟩

namespace Consistent

theorem kept (env : MathopdEnv) : Kept env (fun _ _ => True) Consistent where
  connection _ h := ⟨h.live, h.file, h.empty⟩
  stop h := ⟨h.live, h.file, h.empty⟩
  elapse _ h := ⟨h.live, h.file, h.empty⟩
  free _ := ⟨fun _ h => (nomatch h), fun _ h => (nomatch h), fun _ => rfl⟩
  acceptImage _ h := ⟨h.live, h.file, h.empty⟩
  acceptConfig h := ⟨h.live, h.file, h.empty⟩
  burnCall _ h := ⟨h.live, h.file, h.empty⟩
  burnDone h := ⟨h.live, h.file, h.empty⟩

theorem scanData (h : Consistent s) (boundary : List UInt8) :
    Consistent (s.scanData env boundary) := by
  have hsame := sameBlocks_scanData env s boundary
  refine ⟨fun b hb => (hsame.live b).trans (h.live b (hsame.data ▸ hb)), fun p hp => ?_,
    fun hnone => hsame.length.trans (h.empty (hsame.data ▸ hnone))⟩
  rw [hsame.data]
  rcases scanData_eq env s boundary with heq | ⟨b, ptr, name, len, mem, hb, hptr, heq⟩
  · exact h.file p (heq ▸ hp)
  · rw [heq] at hp
    rcases hptr p hp with hold | rfl
    · exact h.file p hold
    · exact hb

theorem filled (h : Consistent s) {m : Multipart} {b : ℕ} (hb : s.upload.data = some b)
    (r : ReadResult) : Consistent (s.filled env m b r) where
  live b' hb' := (size_update s.blocks b b' _).2.trans (h.live b' hb')
  file := h.file
  empty hnone := nomatch hb.symm.trans hnone

end Consistent

def movedLength (env : MathopdEnv) (cl : ℤ) (body : List UInt8) : ℕ :=
  if body.length ≤ uploadSize env cl then body.length else 0

section Allocate

variable (env s) (cl : ℤ) (body : List UInt8) (fresh : ℤ → UInt8)

theorem allocate_upload (h : s.upload.length = 0) :
    (s.allocate env cl body fresh).upload =
      { s.upload with data := some s.nextBlock, length := movedLength env cl body } := by
  simp only [Mathopd.allocate, movedLength]
  split
  · next hmoved => rw [if_pos hmoved.2]
  · next hmoved =>
    have hzero : (if body.length ≤ uploadSize env cl then body.length else 0) = 0 := by
      split
      · next hle => exact Decidable.not_not.mp fun hne => hmoved ⟨hne, hle⟩
      · rfl
    rw [hzero, h]
    rfl

theorem allocate_size :
    ((s.allocate env cl body fresh).blocks s.nextBlock).size = uploadSize env cl := by
  simp only [Mathopd.allocate]
  split <;> simp only [Function.update_self]

theorem allocate_live : ((s.allocate env cl body fresh).blocks s.nextBlock).live = true := by
  simp only [Mathopd.allocate]
  split <;> simp only [Function.update_self]

end Allocate

namespace Consistent

theorem allocate (h : Consistent s) (hdata : s.upload.data = none) (cl : ℤ) (body : List UInt8)
    (fresh : ℤ → UInt8) : Consistent (s.allocate env cl body fresh) := by
  have hupload := allocate_upload env s cl body fresh (h.empty hdata)
  constructor
  · intro b hb
    rw [hupload] at hb
    obtain rfl := Option.some.inj hb
    exact allocate_live env s cl body fresh
  · intro p hp
    rw [hupload] at hp
    exact nomatch hdata.symm.trans (h.file p hp)
  · intro hnone
    rw [hupload] at hnone
    cases hnone

theorem reading (h : Consistent s) {cn b : ℕ} {m m' : Multipart} {malloc : Option (ℤ → UInt8)}
    (hr : s.reading env cn m malloc = some (s', m', b)) : Consistent s' :=
  (kept env).reading h hr h.allocate

/-- An event leaves no pointer to a block that is freed. -/
theorem step (h : Consistent s) (e : MathopdEvent) : Consistent (s.step env e) := by
  refine (kept env).step h fun _ _ hr => ?_
  have h' := h.reading hr
  have hb := (Mathopd.reading_spec hr).1
  exact (kept env).readBody (fun _ _ => trivial) (fun _ _ => trivial) ⟨h'.live, h'.file, h'.empty⟩
    fun _ => ⟨h'.filled hb _, (h'.filled hb _).scanData _⟩

end Consistent

end Wbr1310.Httpd
