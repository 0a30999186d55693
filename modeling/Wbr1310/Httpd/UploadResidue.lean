import Wbr1310.Httpd.UploadBody

/-!
# Uploads one after the other

Uploads come one at a time. The state of the server is extended by what the current upload has
delivered of its body, for an upload that begins when no accepted upgrade is pending. `flag` is
-1 until the first internal request, and until then `close_connection` does not clear
`upload_file`.
-/

namespace Wbr1310.Httpd

open Lib Function Option

variable {env : MathopdEnv} {s : Mathopd}

def Connection.isFree : Connection → Bool
  | .free => true
  | .reading | .multipart _ | .writing => false

theorem Connection.eq_free {c : Connection} (h : c.isFree = true) : c = .free := by
  cases c with
  | free => rfl
  | reading => cases h
  | multipart m => cases h
  | writing => cases h

namespace Mathopd

def Closes (env : MathopdEnv) (s : Mathopd) (e : MathopdEvent) : Prop :=
  ∃ cn ∈ e.connection, (s.connections cn).isFree = false ∧
    ((s.step env e).connections cn).isFree = true

instance (env : MathopdEnv) (s : Mathopd) (e : MathopdEvent) : Decidable (s.Closes env e) :=
  inferInstanceAs (Decidable (∃ cn ∈ e.connection, _ ∧ _))

def Renews (s : Mathopd) : MathopdEvent → Bool
  | .accept cn => match s.connections cn with
    | .writing => true
    | .free | .reading | .multipart _ => false
  | _ => false

/-- What `read` brings during the event. -/
def received (env : MathopdEnv) (s : Mathopd) : MathopdEvent → List UInt8
  | .readable cn r malloc _ => match s.connections cn with
    | .multipart m => match s.reading env cn m malloc with
      | some (s', m', _) => s'.readGot env m' r
      | none => []
    | .free | .reading | .writing => []
  | _ => []

/-- What `scan_multipart` goes through during the event. -/
def parsed (env : MathopdEnv) (s : Mathopd) : MathopdEvent → Option (List UInt8)
  | .readable cn r malloc _ => match s.connections cn with
    | .multipart m => match s.reading env cn m malloc with
      | some (s', m', b) => s'.parsedBody env m' b r
      | none => none
    | .free | .reading | .writing => none
  | _ => none

end Mathopd

/-- The server, whether no accepted upgrade was pending when the last request was over, and what
the upload that began then has delivered. -/
structure Tracked where
  server : Mathopd
  clean : Bool
  own : Option (List UInt8)

namespace Tracked

def start : Tracked := ⟨.start, true, none⟩

section

variable (env : MathopdEnv) (t : Tracked) (e : MathopdEvent)

/-- A request is over: its connection is closed, or begins a new request. -/
def Ends (s : Mathopd) (e : MathopdEvent) : Prop :=
  s.Closes env e ∨ s.Renews e

instance (env : MathopdEnv) (s : Mathopd) (e : MathopdEvent) : Decidable (Ends env s e) :=
  inferInstanceAs (Decidable (_ ∨ _))

/-- What the upload has delivered after an event; it is over when its body is complete. -/
def nextOwn : MathopdEvent → Option (List UInt8)
  | .headers cn _ _ body => match t.server.connections cn with
    | .reading => if t.clean then some body else none
    | .free | .multipart _ | .writing => t.own
  | .readable cn r malloc _ => match t.server.connections cn with
    | .multipart m => match t.server.reading env cn m malloc with
      | some (s', m', b) =>
        if s'.Complete env m' b r then none else t.own.map (· ++ s'.readGot env m' r)
      | none => t.own
    | .free | .reading | .writing => t.own
  | _ => t.own

def step : Tracked :=
  if t.server.running then
    { server := t.server.handle env e
      clean := if Ends env t.server e then decide (t.server.upload.flag ≤ 0) else t.clean
      own := t.nextOwn env e }
  else t

def OneAtATime : MathopdEvent → Prop
  | .accept cn => ∀ cn', cn' ≠ cn → t.server.connections cn' = .free
  | _ => True

/-- No connection ends while `flag` is -1 and a block is allocated, none begins a new request
while one is allocated for no upgrade, and the headers of a request come with no more than its
body, which is within the limit. -/
def Unbroken : MathopdEvent → Prop
  | .accept cn => t.server.Renews (.accept cn) → t.server.upload.flag ≤ 0 →
      t.server.upload.data = none
  | .headers _ _ contentLength body =>
    ∀ n ∈ contentLength, WithinLimit env (atoi n) ∧ body.length ≤ atoi n
  | .readable cn r malloc o => t.server.upload.flag ≠ -1 ∨ match t.server.connections cn with
    | .multipart m => match t.server.reading env cn m malloc with
      | some (s', m', b) =>
        (r = .again ∨ s'.readGot env m' r ≠ []) ∧ (s'.Complete env m' b r → o ≠ .failed)
      | none => True
    | .free | .reading | .writing => True
  | .request _ o => t.server.upload.flag ≠ -1 ∨ t.server.upload.data = none ∨ o ≠ .failed
  | .close _ => t.server.upload.flag ≠ -1 ∨ t.server.upload.data = none
  | .tick _ | .poll _ => True

/-- A connection that is closed while no accepted upgrade is pending leaves nothing behind, and
what `scan_multipart` goes through is the body of the upload. -/
def NoResidue : Prop :=
  (t.server.Closes env e → t.server.upload.flag ≤ 0 →
    (t.server.step env e).upload.data = none ∧ (t.server.step env e).upload.length = 0) ∧
  ∀ own bs, t.own = some own → t.server.parsed env e = some bs → bs = own ++ t.server.received env e

end

end Tracked

theorem flag_kept (env : MathopdEnv) : Kept env (fun _ _ => True) fun s => -1 ≤ s.upload.flag where
  connection _ h := h
  stop h := h
  elapse _ h := h
  free _ := (by decide : (-1 : ℤ) ≤ 0)
  acceptImage _ _ := (by decide : (-1 : ℤ) ≤ 1)
  acceptConfig _ := (by decide : (-1 : ℤ) ≤ 2)
  burnCall _ h := h
  burnDone _ := (by decide : (-1 : ℤ) ≤ 0)

/-- No event makes `flag` less than -1. -/
theorem flag_step (h : -1 ≤ s.upload.flag) (e : MathopdEvent) :
    -1 ≤ (s.step env e).upload.flag := by
  refine (flag_kept env).step h fun {cn m r malloc o s' m' b} _ _ hr => ?_
  have h' : -1 ≤ s'.upload.flag := (Mathopd.reading_spec hr).2.1 ▸ h
  refine (flag_kept env).readBody (fun _ _ => trivial) (fun _ _ => trivial) h' fun _ => ⟨h', ?_⟩
  rw [(sameBlocks_scanData env _ _).flag]
  exact h'

/-- What has arrived of an upload: what came with the headers before `read` is called for the first
time, and what the block holds afterwards. -/
inductive Receiving (env : MathopdEnv) (s : Mathopd) (m : Multipart) : List UInt8 → Prop
  | waiting (data : s.upload.data = none)
      (limit : ∀ n ∈ m.inContentLength, WithinLimit env (atoi n) ∧ m.body.length ≤ atoi n) :
      Receiving env s m m.body
  | holding {own : List UInt8} (b : ℕ) (holds : Holds s b own)
      (limit : WithinLimit env m.contentLength) (le : own.length ≤ m.contentLength) :
      Receiving env s m own

def Accounted (env : MathopdEnv) (s : Mathopd) (clean : Bool) (own : Option (List UInt8)) :
    Connection → Prop
  | .free | .reading => clean = true → s.upload.data = none
  | .multipart m => ∀ o ∈ own, Receiving env s m o
  | .writing => True

variable {s' : Mathopd} {m : Multipart}

/-- When `read` is called, the block holds what has arrived. -/
theorem Receiving.reading {m' : Multipart} {own : List UInt8} {cn b : ℕ}
    {malloc : Option (ℤ → UInt8)} (h : Receiving env s m own) (hc : Consistent s)
    (hr : s.reading env cn m malloc = some (s', m', b)) :
    Holds s' b own ∧ WithinLimit env m'.contentLength ∧ own.length ≤ m'.contentLength := by
  rcases Mathopd.reading_cases hr with ⟨rfl, rfl, hdata⟩ | ⟨n, fresh, hdata, hn, rfl, rfl, rfl⟩
  · cases h with
    | waiting hnone hlimit => cases hnone.symm.trans hdata
    | holding b' hholds hlimit hle =>
      obtain rfl := some.inj (hdata.symm.trans hholds.data)
      exact ⟨hholds, hlimit, hle⟩
  · cases h with
    | waiting _ hlimit =>
      obtain ⟨hwithin, hbody⟩ := hlimit n hn
      exact ⟨(holds_allocate hwithin hbody (hc.empty hdata) fresh).setConnection cn _,
        hwithin, hbody⟩
    | holding b' hholds hlimit hle => cases hdata.symm.trans hholds.data

theorem Receiving.same {own : List UInt8} (h : Receiving env s m own)
    (hupload : s'.upload.data = s.upload.data) (hlength : s'.upload.length = s.upload.length)
    (hblocks : s'.blocks = s.blocks) :
    Receiving env s' m own := by
  cases h with
  | waiting hdata hlimit => exact .waiting (hupload.trans hdata) hlimit
  | holding b hholds hlimit hle =>
    refine .holding b ⟨hupload.trans hholds.data, hlength.trans hholds.length, ?_⟩ hlimit hle
    rw [hblocks]
    exact hholds.bytes_eq

namespace Tracked

variable {t : Tracked} {cn : ℕ}

/-- There is at most one connection, and its state says what is there of the upload. -/
structure Sound (env : MathopdEnv) (t : Tracked) : Prop where
  consistent : Consistent t.server
  flag : -1 ≤ t.server.upload.flag
  one : ∃ cn, (∀ cn', cn' ≠ cn → t.server.connections cn' = .free) ∧
    Accounted env t.server t.clean t.own (t.server.connections cn)

theorem Sound.start : Sound env start :=
  ⟨.start, Int.le_refl _, 0, fun _ _ => rfl, fun _ => rfl⟩

theorem Sound.accounted (h : Sound env t) (cn : ℕ)
    (hcn : t.server.connections cn = .free → ∀ cn', cn' ≠ cn → t.server.connections cn' = .free) :
    (∀ cn', cn' ≠ cn → t.server.connections cn' = .free) ∧
      Accounted env t.server t.clean t.own (t.server.connections cn) := by
  obtain ⟨c, hfree, haccounted⟩ := h.one
  rcases eq_or_ne cn c with rfl | hne
  · exact ⟨hfree, haccounted⟩
  · have hothers := hcn (hfree cn hne)
    rw [hothers c hne.symm] at haccounted
    rw [hfree cn hne]
    exact ⟨hothers, haccounted⟩

section Event

variable {e : MathopdEvent}

def nextClean (env : MathopdEnv) (t : Tracked) (e : MathopdEvent) : Bool :=
  if Ends env t.server e then decide (t.server.upload.flag ≤ 0) else t.clean

def AccountedAfter (env : MathopdEnv) (t : Tracked) (e : MathopdEvent) (cn : ℕ) : Prop :=
  Accounted env (t.server.handle env e) (t.nextClean env e) (t.nextOwn env e)
    ((t.server.handle env e).connections cn)

theorem flag_of_unbroken (hflag : -1 ≤ t.server.upload.flag) (hle : t.server.upload.flag ≤ 0)
    {p : Prop} (h : t.server.upload.flag ≠ -1 ∨ p) : t.server.upload.flag = 0 ∨ p := by
  rcases h with hne | hp
  · exact .inl (by omega)
  · exact .inr hp

variable {r : ReadResult} {malloc : Option (ℤ → UInt8)} {o : Outcome}

theorem accounted_of_part {m m' : Multipart} {s' : Mathopd} {b : ℕ}
    (hm : t.server.connections cn = .multipart m)
    (hr : t.server.reading env cn m malloc = some (s', m', b))
    (hholds : ∀ own ∈ t.own, Receiving env (t.server.handle env (.readable cn r malloc o)) m'
      (own ++ s'.readGot env m' r))
    (hconn : (t.server.handle env (.readable cn r malloc o)).connections cn = .multipart m')
    (hpart : ¬ s'.Complete env m' b r) : AccountedAfter env t (.readable cn r malloc o) cn := by
  rw [AccountedAfter, hconn]
  simp only [nextOwn, hm, hr, if_neg hpart]
  intro own hown
  obtain ⟨own', hown', rfl⟩ := map_eq_some_iff.mp hown
  exact hholds own' hown'

variable (hrun : t.server.running = true)
include hrun

theorem closes_of_free (he : e.connection = some cn)
    (hbefore : (t.server.connections cn).isFree = false)
    (hafter : (t.server.handle env e).connections cn = .free) : t.server.Closes env e := by
  refine ⟨cn, he, hbefore, ?_⟩
  rw [Mathopd.step, if_pos hrun, hafter]
  rfl

theorem accounted_of_free (he : e.connection = some cn)
    (hbefore : (t.server.connections cn).isFree = false)
    (hafter : (t.server.handle env e).connections cn = .free)
    (hdata : t.server.upload.flag ≤ 0 → (t.server.handle env e).upload.data = none) :
    AccountedAfter env t e cn := by
  rw [AccountedAfter, hafter]
  intro hclean
  rw [nextClean, if_pos (.inl (closes_of_free hrun he hbefore hafter))] at hclean
  exact hdata (of_decide_eq_true hclean)

theorem accounted_of_idle (h : Accounted env t.server t.clean t.own (t.server.connections cn))
    (hidle : t.server.handle env e = t.server) (hrenews : t.server.Renews e = false)
    (hown : t.nextOwn env e = t.own) : AccountedAfter env t e cn := by
  have hends : ¬ Ends env t.server e := by
    rintro (⟨c, -, hbefore, hafter⟩ | hrenews')
    · rw [Mathopd.step, if_pos hrun, hidle, hbefore] at hafter
      cases hafter
    · cases hrenews.symm.trans hrenews'
  rwa [AccountedAfter, nextClean, if_neg hends, hidle, hown]

theorem accounted_accept (hun : Unbroken env t (.accept cn))
    (h : Accounted env t.server t.clean t.own (t.server.connections cn)) :
    AccountedAfter env t (.accept cn) cn := by
  have hidle : t.server.handle env (.accept cn) = t.server →
      t.server.Renews (.accept cn) = false → AccountedAfter env t (.accept cn) cn :=
    fun hhandle hrenews => accounted_of_idle hrun h hhandle hrenews rfl
  have haccept : t.server.handle env (.accept cn) = t.server.setConnection cn .reading →
      (t.nextClean env (.accept cn) = true → t.server.upload.data = none) →
      AccountedAfter env t (.accept cn) cn := by
    intro hhandle hdata
    rw [AccountedAfter, hhandle, Mathopd.setConnection]
    simp only [update_self]
    exact hdata
  cases hc : t.server.connections cn with
  | reading => exact hidle (by simp only [Mathopd.handle, hc]) (by simp only [Mathopd.Renews, hc])
  | multipart m =>
    exact hidle (by simp only [Mathopd.handle, hc]) (by simp only [Mathopd.Renews, hc])
  | free =>
    refine haccept (by simp only [Mathopd.handle, hc]) fun hclean => ?_
    have hends : ¬ Ends env t.server (.accept cn) := by
      rintro (⟨c, hcn, hbefore, -⟩ | hrenews)
      · obtain rfl := some.inj hcn
        rw [hc] at hbefore
        cases hbefore
      · simp only [Mathopd.Renews, hc] at hrenews
        cases hrenews
    rw [nextClean, if_neg hends] at hclean
    rw [hc] at h
    exact h hclean
  | writing =>
    have hrenews : t.server.Renews (.accept cn) = true := by simp only [Mathopd.Renews, hc]
    refine haccept (by simp only [Mathopd.handle, hc]) fun hclean => ?_
    rw [nextClean, if_pos (.inr hrenews)] at hclean
    exact hun hrenews (of_decide_eq_true hclean)

theorem accounted_headers {boundary body : List UInt8} {contentLength : Option ℤ}
    (hun : Unbroken env t (.headers cn boundary contentLength body))
    (h : Accounted env t.server t.clean t.own (t.server.connections cn)) :
    AccountedAfter env t (.headers cn boundary contentLength body) cn := by
  cases hc : t.server.connections cn with
  | reading =>
    rw [hc] at h
    simp only [AccountedAfter, Mathopd.handle, nextOwn, hc, Mathopd.setConnection,
      update_self, Accounted]
    intro o ho
    cases hclean : t.clean with
    | true =>
      rw [hclean, if_pos rfl, mem_some_iff] at ho
      obtain rfl := ho
      exact .waiting (h hclean) hun
    | false =>
      rw [hclean] at ho
      cases ho
  | free | multipart m | writing =>
    exact accounted_of_idle hrun h (by simp only [Mathopd.handle, hc]) rfl
      (by simp only [nextOwn, hc])

theorem accounted_close (hflag : -1 ≤ t.server.upload.flag) (hun : Unbroken env t (.close cn))
    (h : Accounted env t.server t.clean t.own (t.server.connections cn)) :
    AccountedAfter env t (.close cn) cn := by
  have hclosed : t.server.handle env (.close cn) = t.server.closeConnection cn →
      (t.server.connections cn).isFree = false → AccountedAfter env t (.close cn) cn := by
    intro hhandle hbefore
    refine accounted_of_free hrun rfl hbefore ?_ fun hle => ?_
    · rw [hhandle, Mathopd.closeConnection_connections, update_self]
    · rw [hhandle]
      exact Mathopd.closeConnection_data _ (flag_of_unbroken hflag hle hun)
  cases hc : t.server.connections cn with
  | free => exact accounted_of_idle hrun h (by simp only [Mathopd.handle, hc]) rfl rfl
  | reading | multipart m | writing =>
    exact hclosed (by simp only [Mathopd.handle, hc]) (by rw [hc]; rfl)

theorem accounted_request (hflag : -1 ≤ t.server.upload.flag)
    (hun : Unbroken env t (.request cn o))
    (h : Accounted env t.server t.clean t.own (t.server.connections cn)) :
    AccountedAfter env t (.request cn o) cn := by
  cases hc : t.server.connections cn with
  | reading =>
    have hhandle : t.server.handle env (.request cn o) = t.server.finishRequest env cn o := by
      simp only [Mathopd.handle, hc]
    -- the connection is answered, or it is closed
    have hwriting : (t.server.finishRequest env cn o).connections cn = .writing →
        AccountedAfter env t (.request cn o) cn := by
      intro hw
      rw [AccountedAfter, hhandle, hw]
      trivial
    cases o with
    | internal i | reply contentLength | other => exact hwriting (update_self _ _ _)
    | failed =>
      refine accounted_of_free hrun rfl (by rw [hc]; rfl) ?_ fun hle => ?_
      · rw [hhandle, Mathopd.finishRequest, Mathopd.closeConnection_connections,
          update_self]
      · rw [hhandle]
        rcases flag_of_unbroken hflag hle hun with hzero | hdata | hne
        · exact Mathopd.closeConnection_data _ (.inl hzero)
        · exact Mathopd.closeConnection_data _ (.inr hdata)
        · exact absurd rfl hne
  | free | multipart m | writing =>
    exact accounted_of_idle hrun h (by simp only [Mathopd.handle, hc]) rfl rfl

/-- After the call of `read` that completes the body. -/
theorem accounted_complete (hflag : -1 ≤ t.server.upload.flag) {m m' : Multipart} {s' : Mathopd}
    {b : ℕ} (hm : t.server.connections cn = .multipart m)
    (hr : t.server.reading env cn m malloc = some (s', m', b))
    (hun : Unbroken env t (.readable cn r malloc o)) (hcomplete : s'.Complete env m' b r)
    (heq : t.server.handle env (.readable cn r malloc o) =
      (s'.filled env m' b r).scanMultipart env cn m' o) :
    AccountedAfter env t (.readable cn r malloc o) cn := by
  have hown : t.nextOwn env (.readable cn r malloc o) = none := by
    simp only [nextOwn, hm, hr, if_pos hcomplete]
  cases o with
  | internal i | other =>
    rw [AccountedAfter, heq, Mathopd.scanMultipart, Mathopd.finishMultipart,
      Mathopd.setConnection]
    simp only [update_self, Accounted]
  | reply contentLength =>
    rw [AccountedAfter, heq, Mathopd.scanMultipart, Mathopd.finishMultipart,
      Mathopd.setConnection, hown]
    simp only [update_self]
    exact nofun
  | failed =>
    refine accounted_of_free hrun rfl (by rw [hm]; rfl) ?_ fun hle => ?_
    · rw [heq, Mathopd.scanMultipart, Mathopd.finishMultipart,
        Mathopd.closeConnection_connections, update_self]
    · rw [heq]
      refine Mathopd.closeConnection_data _ (.inl ?_)
      rw [(sameBlocks_scanData env _ _).flag]
      rcases flag_of_unbroken hflag hle hun with hzero | hnever
      · exact (Mathopd.reading_spec hr).2.1.trans hzero
      · simp only [hm, hr] at hnever
        exact absurd rfl (hnever.2 hcomplete)

theorem accounted_readable (hc : Consistent t.server) (hflag : -1 ≤ t.server.upload.flag)
    (hun : Unbroken env t (.readable cn r malloc o))
    (h : Accounted env t.server t.clean t.own (t.server.connections cn)) :
    AccountedAfter env t (.readable cn r malloc o) cn := by
  cases hm : t.server.connections cn with
  | free | reading | writing =>
    exact accounted_of_idle hrun h (by simp only [Mathopd.handle, hm]) rfl
      (by simp only [nextOwn, hm])
  | multipart m =>
    have hhandle : t.server.handle env (.readable cn r malloc o) =
        t.server.readMultipart env cn m r malloc o := by simp only [Mathopd.handle, hm]
    have hbefore : (t.server.connections cn).isFree = false := by rw [hm]; rfl
    rw [hm] at h
    rcases Mathopd.readMultipart_cases env t.server cn m r malloc o with
      ⟨s', m', b, hr, heq⟩ | ⟨hr, hdata, heq | ⟨-, heq⟩⟩
    · obtain ⟨-, hflag', hconn⟩ := Mathopd.reading_spec hr
      have hholds : ∀ own ∈ t.own, Holds s' b own ∧ WithinLimit env m'.contentLength ∧
          own.length ≤ m'.contentLength := fun own hown => (h own hown).reading hc hr
      rw [heq] at hhandle
      rcases Mathopd.readBody_cases env s' cn m' b r o with
        ⟨rfl, hbody⟩ | ⟨hagain, hgot, hbody⟩ | ⟨-, hpart, hbody⟩ | ⟨hcomplete, hbody⟩
      · -- nothing has come yet
        refine accounted_of_part hm hr (fun own hown => ?_) ?_ fun hcomplete => hcomplete.1 rfl
        · obtain ⟨hown', hlimit, hle⟩ := hholds own hown
          rw [hhandle, Mathopd.readGot, List.append_nil]
          exact .holding b (hown'.readCall m') hlimit hle
        · rw [hhandle]
          exact hconn hm
      · -- the end of the stream, or an error
        rw [hbody] at hhandle
        refine accounted_of_free hrun rfl hbefore ?_ fun hle => ?_
        · rw [hhandle, Mathopd.closeConnection_connections, update_self]
        · rw [hhandle]
          refine Mathopd.closeConnection_data _ (.inl ?_)
          rcases flag_of_unbroken hflag hle hun with hzero | hnever
          · exact hflag'.trans hzero
          · simp only [hm, hr] at hnever
            rcases hnever.1 with rfl | hne
            · exact absurd rfl hagain
            · exact absurd hgot hne
      · rw [hbody] at hhandle
        refine accounted_of_part hm hr (fun own hown => ?_) ?_ hpart
        · obtain ⟨hown', hlimit, hle⟩ := hholds own hown
          obtain ⟨hfilled, hle'⟩ := hown'.filled hlimit hle r
          rw [hhandle]
          exact .holding b hfilled hlimit hle'
        · rw [hhandle]
          exact hconn hm
      · exact accounted_complete hrun hflag hm hr hun hcomplete (hhandle.trans hbody)
    · -- the server stops
      rw [heq] at hhandle
      rw [AccountedAfter, hhandle]
      simp only [nextOwn, hm, hr]
      exact fun own hown => (h own hown).same rfl rfl rfl
    · rw [heq] at hhandle
      refine accounted_of_free hrun rfl hbefore ?_ fun _ => ?_
      · rw [hhandle, Mathopd.closeConnection_connections, update_self]
      · rw [hhandle]
        exact Mathopd.closeConnection_data _ (.inr hdata)

end Event

variable {e : MathopdEvent}

theorem handle_of_none (env : MathopdEnv) (s : Mathopd) (he : e.connection = none) :
    (s.handle env e).connections = s.connections ∧
      (s.handle env e).upload.data = s.upload.data ∧
      (s.handle env e).upload.length = s.upload.length ∧ (s.handle env e).blocks = s.blocks := by
  cases e with
  | tick seconds => exact ⟨rfl, rfl, rfl, rfl⟩
  | poll burnOk =>
    simp only [Mathopd.handle, Mathopd.checkUpgrad]
    split_ifs <;> exact ⟨rfl, rfl, rfl, rfl⟩
  | accept cn | headers cn boundary contentLength body | readable cn r malloc o | request cn o
  | close cn => cases he

/-- An event on a connection that is not in use does nothing. -/
theorem step_of_free (env : MathopdEnv) (he : e.connection = some cn)
    (hfree : t.server.connections cn = .free) (haccept : ∀ c, e ≠ .accept c) :
    t.step env e = t := by
  have hhandle : t.server.handle env e = t.server ∧ t.nextOwn env e = t.own ∧
      t.server.Renews e = false := by
    cases e with
    | accept c => exact absurd rfl (haccept c)
    | headers c boundary contentLength body | readable c r malloc o | request c o | close c =>
      obtain rfl := some.inj he
      simp only [Mathopd.handle, nextOwn, hfree, Mathopd.Renews, and_self]
    | tick seconds | poll burnOk => cases he
  obtain ⟨hserver, hown, hrenews⟩ := hhandle
  have hends : ¬ Ends env t.server e := by
    rintro (⟨c, hc, hbefore, -⟩ | hrenews')
    · obtain rfl := some.inj (he.symm.trans hc)
      rw [hfree] at hbefore
      cases hbefore
    · cases hrenews.symm.trans hrenews'
  rw [step, if_neg hends, hserver, hown, ite_self]

theorem Sound.accountedAfter (h : Sound env t) (hrun : t.server.running = true)
    (he : e.connection = some cn) (hun : Unbroken env t e)
    (hs : Accounted env t.server t.clean t.own (t.server.connections cn)) :
    AccountedAfter env t e cn := by
  cases e with
  | accept c =>
    obtain rfl := some.inj he
    exact accounted_accept hrun hun hs
  | headers c boundary contentLength body =>
    obtain rfl := some.inj he
    exact accounted_headers hrun hun hs
  | readable c r malloc o =>
    obtain rfl := some.inj he
    exact accounted_readable hrun h.consistent h.flag hun hs
  | request c o =>
    obtain rfl := some.inj he
    exact accounted_request hrun h.flag hun hs
  | close c =>
    obtain rfl := some.inj he
    exact accounted_close hrun h.flag hun hs
  | tick seconds => cases he
  | poll burnOk => cases he

theorem Accounted.handle_of_none (he : e.connection = none) {clean : Bool}
    {own : Option (List UInt8)} {c : Connection} (h : Accounted env s clean own c) :
    Accounted env (s.handle env e) clean own c := by
  obtain ⟨-, hdata, hlength, hblocks⟩ := Tracked.handle_of_none env s he
  cases c with
  | free | reading => exact fun hclean => hdata.trans (h hclean)
  | multipart m => exact fun o ho => (h o ho).same hdata hlength hblocks
  | writing => trivial

theorem Sound.handle_none (h : Sound env t) (he : e.connection = none) :
    ∃ cn, (∀ cn', cn' ≠ cn → (t.server.handle env e).connections cn' = .free) ∧
      AccountedAfter env t e cn := by
  obtain ⟨cn, hfree, hs⟩ := h.one
  have hconn := (Tracked.handle_of_none env t.server he).1
  have hends : ¬ Ends env t.server e := by
    rintro (⟨c, hc, -⟩ | hrenews)
    · rw [he] at hc
      cases hc
    · cases e with
      | accept c | headers c boundary contentLength body | readable c r malloc o | request c o
      | close c => cases he
      | tick seconds | poll burnOk => cases hrenews
  have hown : t.nextOwn env e = t.own := by
    cases e with
    | headers c boundary contentLength body => cases he
    | readable c r malloc o => cases he
    | _ => rfl
  refine ⟨cn, fun cn' hne => ?_, ?_⟩
  · rw [hconn]
    exact hfree cn' hne
  · rw [AccountedAfter, nextClean, if_neg hends, hown, hconn]
    exact Accounted.handle_of_none he hs

theorem Sound.handle_some (h : Sound env t) (hrun : t.server.running = true)
    (he : e.connection = some cn) (hun : Unbroken env t e)
    (halone : t.server.connections cn = .free →
      ∀ cn', cn' ≠ cn → t.server.connections cn' = .free) :
    ∃ cn, (∀ cn', cn' ≠ cn → (t.server.handle env e).connections cn' = .free) ∧
      AccountedAfter env t e cn := by
  obtain ⟨hfree, hs⟩ := h.accounted cn halone
  refine ⟨cn, fun cn' hne => ?_, h.accountedAfter hrun he hun hs⟩
  rw [Mathopd.handle_of_ne env t.server hne he]
  exact hfree cn' hne

/-- The step lemma: the upload stays accounted for. -/
theorem Sound.step (h : Sound env t) (hone : OneAtATime t e) (hun : Unbroken env t e) :
    Sound env (t.step env e) := by
  by_cases hrun : t.server.running
  swap
  · rwa [Tracked.step, if_neg hrun]
  have hsound : (∃ cn, (∀ cn', cn' ≠ cn → (t.server.handle env e).connections cn' = .free) ∧
      AccountedAfter env t e cn) → Sound env (t.step env e) := by
    intro haccounted
    have hconsistent : Consistent (t.server.step env e) := h.consistent.step e
    have hflag : -1 ≤ (t.server.step env e).upload.flag := flag_step h.flag e
    rw [Mathopd.step, if_pos hrun] at hconsistent hflag
    rw [Tracked.step, if_pos hrun]
    exact ⟨hconsistent, hflag, haccounted⟩
  cases he : e.connection with
  | none => exact hsound (h.handle_none he)
  | some cn =>
    by_cases haccept : ∃ c, e = .accept c
    · obtain ⟨c, rfl⟩ := haccept
      obtain rfl := some.inj he
      exact hsound (h.handle_some hrun he hun fun _ => hone)
    · by_cases hfree : t.server.connections cn = .free
      · rw [step_of_free env he hfree fun c hc => haccept ⟨c, hc⟩]
        exact h
      · exact hsound (h.handle_some hrun he hun fun hfree' => absurd hfree' hfree)

theorem Sound.closed (h : Sound env t) (hun : Unbroken env t e) (hcloses : t.server.Closes env e)
    (hflag : t.server.upload.flag ≤ 0) :
    (t.server.step env e).upload.data = none := by
  have hends : t.nextClean env e = true := by
    rw [nextClean, if_pos (.inl hcloses)]
    exact decide_eq_true hflag
  obtain ⟨cn, he, hbefore, hafter⟩ := hcloses
  by_cases hrun : t.server.running
  swap
  · rw [Mathopd.step, if_neg hrun, hbefore] at hafter
    cases hafter
  have hs := (h.accounted cn fun hfree => by
    rw [hfree] at hbefore
    cases hbefore).2
  have haccounted := h.accountedAfter hrun he hun hs
  rw [Mathopd.step, if_pos hrun] at hafter ⊢
  rw [AccountedAfter, Connection.eq_free hafter] at haccounted
  exact haccounted hends

theorem Sound.parsed (h : Sound env t) {own bs : List UInt8} (hown : t.own = some own)
    (hparsed : t.server.parsed env e = some bs) :
    bs = own ++ t.server.received env e := by
  cases e with
  | readable cn r malloc o =>
    simp only [Mathopd.parsed] at hparsed
    split at hparsed
    · next m hm =>
      split at hparsed
      · next s' m' b hr =>
        have hs := (h.accounted cn fun hfree => by cases hm.symm.trans hfree).2
        rw [hm] at hs
        obtain ⟨hholds, hlimit, hle⟩ := (hs own hown).reading h.consistent hr
        simp only [Mathopd.received, hm, hr]
        exact hholds.parsedBody hlimit hle hparsed
      · cases hparsed
    all_goals cases hparsed
  | accept cn | headers cn boundary contentLength body | request cn o | close cn | tick seconds
  | poll burnOk => cases hparsed

theorem oneAtATime_of_connection (env : MathopdEnv) (cn : ℕ) {events : List MathopdEvent}
    (h : ∀ e ∈ events, e.connection = some cn) :
    Machine.Along (step env) OneAtATime start events := by
  suffices hrun : ∀ t : Tracked, (∀ cn', cn' ≠ cn → t.server.connections cn' = .free) →
      Machine.Along (step env) OneAtATime t events from hrun start fun _ _ => rfl
  induction events with
  | nil => exact fun _ _ => trivial
  | cons e events ih =>
    intro t ht
    have he := h e List.mem_cons_self
    refine ⟨?_, ih (fun e' he' => h e' (List.mem_cons_of_mem e he')) _ fun cn' hne => ?_⟩
    · cases e with
      | accept c =>
        obtain rfl := some.inj he
        exact ht
      | _ => trivial
    · rw [step]
      split
      · exact (Mathopd.handle_of_ne env t.server hne he).trans (ht cn' hne)
      · exact ht cn' hne

end Tracked

/-- Uploads that come one at a time leave nothing behind and are scanned as they were sent, as long
as none is broken off while `flag` is still -1. -/
theorem uploads_leave_no_residue (env : MathopdEnv) (events : List MathopdEvent)
    (hone : Machine.Along (Tracked.step env) Tracked.OneAtATime .start events)
    (hun : Machine.Along (Tracked.step env) (Tracked.Unbroken env) .start events) :
    Machine.Along (Tracked.step env) (Tracked.NoResidue env) .start events := by
  refine Machine.along_of_invariant (fun t e h hcond => ⟨h.step hcond.1 hcond.2, ?_⟩)
    Tracked.Sound.start (Machine.along_and.mpr ⟨hone, hun⟩)
  have hconsistent : Consistent (t.server.step env e) := h.consistent.step e
  refine ⟨fun hcloses hflag => ?_, fun own bs hown hparsed => h.parsed hown hparsed⟩
  have hdata := h.closed hcond.2 hcloses hflag
  exact ⟨hdata, hconsistent.empty hdata⟩

def smallServer : MathopdEnv := ⟨100, fun _ _ => false⟩

/-- An upload that is refused, and one that is broken off. -/
theorem uploads_leave_no_residue_refused :
    let events : List MathopdEvent :=
      [.accept 0, .headers 0 [66] (some 4) [1],
        .readable 0 (.bytes [2, 3, 4]) (some fun _ => 0) (.internal .uploadImage), .close 0,
        .accept 0, .headers 0 [66] (some 2) [], .readable 0 (.bytes [5]) (some fun _ => 0) .other,
        .close 0]
    Machine.Along (Tracked.step smallServer) (Tracked.NoResidue smallServer) .start events := by
  intro events
  refine uploads_leave_no_residue smallServer events
    (Tracked.oneAtATime_of_connection smallServer 0 (by decide)) ?_
  have hfour : ∀ n ∈ some (4 : ℤ), WithinLimit smallServer (atoi n) ∧ (1 : ℕ) ≤ atoi n :=
    fun n hn => some.inj hn ▸ ⟨⟨by decide, by decide, by decide⟩, by decide⟩
  have htwo : ∀ n ∈ some (2 : ℤ), WithinLimit smallServer (atoi n) ∧ (0 : ℕ) ≤ atoi n :=
    fun n hn => some.inj hn ▸ ⟨⟨by decide, by decide, by decide⟩, by decide⟩
  -- the refused image sets `flag` to 0
  exact ⟨nofun, hfour, .inr ⟨.inr (by decide +kernel), fun _ => nofun⟩, .inl (by decide +kernel),
    nofun, htwo, .inl (by decide +kernel), .inl (by decide +kernel), trivial⟩

/-- An upload that is broken off after the start is still there afterwards, and the next one is
scanned with a byte of the old block behind its own. -/
theorem uploads_leave_residue :
    let broken : List MathopdEvent :=
      [.accept 0, .headers 0 [66] (some 10) [],
        .readable 0 (.bytes [1]) (some fun _ => 0) .other, .close 0]
    let next : List MathopdEvent := [.accept 0, .headers 0 [66] (some 2) []]
    let last : MathopdEvent := .readable 0 (.bytes [2]) (some fun _ => 0) .other
    let t := Machine.run (Tracked.step smallServer) .start (broken ++ next)
    Machine.Along (Tracked.step smallServer) Tracked.OneAtATime .start broken ∧
      ¬ Machine.Along (Tracked.step smallServer) (Tracked.NoResidue smallServer) .start broken ∧
      t.own = some [] ∧ t.server.received smallServer last = [2] ∧
      t.server.parsed smallServer last = some [2, 0] := by
  refine ⟨Tracked.oneAtATime_of_connection smallServer 0 (by decide), fun h => ?_, ?_⟩
  · have hclose := h.2.2.2.1.1 (by decide +kernel) (by decide +kernel)
    exact absurd hclose.1 (by decide +kernel)
  · decide +kernel

end Wbr1310.Httpd
