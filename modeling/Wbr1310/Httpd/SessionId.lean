import Wbr1310.Httpd.Gate
import Wbr1310.Httpd.Session

/-!
# The session of a request

A connection keeps its `struct request`, and `init_request` does not reset `sessionid`. This
module follows the number through the requests that one such record serves, and says
when a request uses the number that was looked up for its own peer.
-/

namespace Wbr1310.Httpd

open Lib

/-- The control of a request and the path in the file system. -/
def Request.target (virtuals : List Virtual) (req : Request) : Option (Control × Text) := do
  let v ← findVs virtuals req.host
  let (c, _, pathTranslated) ← faketoreal req.path req.host pathLen v.controls
  pure (c, pathTranslated)

/-- `process_path` calls `get_session_id` for the request. -/
def Request.LooksUp (virtuals : List Virtual) (req : Request) : Prop :=
  ∃ t ∈ req.target virtuals, checkPath t.1.allowDotfiles req.path = true ∧
    t.1.sessionControl = true ∧ ∃ name ∈ t.1.sessionFilter, Text.afterLast '.' t.2 = some name

instance (virtuals : List Virtual) (req : Request) : Decidable (req.LooksUp virtuals) :=
  inferInstanceAs (Decidable (∃ t ∈ req.target virtuals, _ ∧ _ ∧ ∃ name ∈ _, _))

/-- A handler that is a program of its own and gets the environment of `make_cgi_envp`. -/
def Handler.Program : Handler → Prop
  | .external _ => True
  | .cgi => True
  | .internal => False

instance : DecidablePred Handler.Program
  | .external _ => inferInstanceAs (Decidable True)
  | .cgi => inferInstanceAs (Decidable True)
  | .internal => inferInstanceAs (Decidable False)

/-- The types of such programs. -/
def ProgramType : Text × MimeClass → Prop
  | (_, .external) => True
  | (name, .special) => Text.EqIgnoreCase name "CGI".toList
  | (_, .file) => False

instance : DecidablePred ProgramType
  | (_, .external) => inferInstanceAs (Decidable True)
  | (_, .special) => inferInstanceAs (Decidable (Text.EqIgnoreCase _ _))
  | (_, .file) => inferInstanceAs (Decidable False)

namespace Control

variable (c : Control)

/-- A name with this ending is none of a program: it does not end in the extension of a type of
programs, and no such type is there for all names or for a header. -/
def Harmless (s : Text) : Prop :=
  ∀ m ∈ c.mimes, ProgramType (m.name, m.cls) →
    ∃ e ∈ m.ext, ¬ headerExt e ∧ e.length ≤ s.length ∧ ¬ s.EndsIn e

instance (s : Text) : Decidable (c.Harmless s) :=
  inferInstanceAs (Decidable (∀ m ∈ _, _ → ∃ e ∈ _, _))

/-- The files that may answer a request in place of its path, if its session is not checked. -/
def errorFiles (env : RequestEnv) (req : Request) : List Text :=
  [if c.realm.isSome ∧ checkRealm env c req = false then c.error401File else none,
    c.error404File, c.autoIndexCommand].reduceOption

/-- The file is harmless, and so are the indexes if it is a directory. -/
def HarmlessPage (env : RequestEnv) (s : Text) : Prop :=
  c.Harmless s ∧ (env.openFile (s.take (s.length - trailingSlashes s)) = .opened .directory →
    ∀ name ∈ c.indexNames, c.Harmless name)

instance (env : RequestEnv) (s : Text) : Decidable (c.HarmlessPage env s) :=
  inferInstanceAs (Decidable (_ ∧ (_ → ∀ name ∈ _, _)))

/-- No program can be the answer to a request for the path. -/
def NoProgram (env : RequestEnv) (req : Request) (path : Text) : Prop :=
  c.HarmlessPage env path ∧
    ∀ f ∈ c.errorFiles env req, c.HarmlessPage env (f.take (pathLen - 1))

instance (env : RequestEnv) (req : Request) (path : Text) : Decidable (c.NoProgram env req path) :=
  inferInstanceAs (Decidable (_ ∧ ∀ f ∈ _, _))

end Control

/-- A request that has no use for a number: there is no session control, or the path is not one
for which `process_path` checks the session, and no program can be started or be the answer. -/
def Request.NeedsNone (env : RequestEnv) (virtuals : List Virtual) (req : Request) : Prop :=
  ∀ t ∈ req.target virtuals, t.1.sessionControl = true →
    ¬ (checkPath t.1.allowDotfiles req.path = true ∧ sessionExt (Text.afterLast '.' t.2)) ∧
      (env.spawned = false ∨ t.1.NoProgram env req t.2)

instance (env : RequestEnv) (virtuals : List Virtual) (req : Request) :
    Decidable (req.NeedsNone env virtuals) :=
  inferInstanceAs (Decidable (∀ t ∈ _, _ → _ ∧ _))

/-- The numbers that `check_session`, `get_sessiongrp` and the programs get. -/
def usedIds (env : RequestEnv) (virtuals : List Virtual) (req : Request) : List ℤ :=
  match req.target virtuals with
  | some (c, path) =>
    let pStr := Text.afterLast '.' path
    let st := (processRequest env virtuals req).2
    if c.sessionControl = true then
      (if checkPath c.allowDotfiles req.path = true ∧ sessionExt pStr then
        [(findSession env c pStr req.start).sessionid] else []) ++
      (if env.spawned = true then
        (st.handlers.filter (·.Program)).map fun _ => st.sessionid else [])
    else []
  | none => []

variable {req : Request} {c : Control}

section Steady

variable {env : RequestEnv} {st : RequestState} {sid : ℤ} {quiet : Prop}

theorem getMimeFrom_saved {headers : List Text} {s : Text} {mimes : List Mime}
    {found : MimeSearch} {type : Text × MimeClass}
    (h : (getMimeFrom headers s mimes found).saved = some type) :
    found.saved = some type ∨
      ∃ m ∈ mimes, (m.name, m.cls) = type ∧ ∀ e ∈ m.ext, headerExt e ∨ s.EndsIn e := by
  induction mimes generalizing found with
  | nil => exact .inl h
  | cons m mimes ih =>
    have hrest : ∀ {found'}, (getMimeFrom headers s mimes found').saved = some type →
        (found'.saved = some type → found.saved = some type ∨
          (m.name, m.cls) = type ∧ ∀ e ∈ m.ext, headerExt e ∨ s.EndsIn e) →
        found.saved = some type ∨
          ∃ m' ∈ m :: mimes, (m'.name, m'.cls) = type ∧
            ∀ e ∈ m'.ext, headerExt e ∨ s.EndsIn e := by
      intro found' h' hone
      obtain hsaved | ⟨m', hm', hrest⟩ := ih h'
      · exact (hone hsaved).imp_right fun hm => ⟨m, List.mem_cons_self, hm⟩
      · exact .inr ⟨m', List.mem_cons_of_mem m hm', hrest⟩
    rw [getMimeFrom] at h
    split at h
    · next e he =>
      split at h
      · next hheader =>
        have hhead : ∀ e' ∈ m.ext, headerExt e' ∨ s.EndsIn e' := fun e' he' =>
          .inl (Option.some.inj (he.symm.trans he') ▸ hheader)
        simp only at h
        split at h
        · split at h
          · exact .inr ⟨m, List.mem_cons_self, Option.some.inj h, hhead⟩
          · exact hrest h fun hsaved => .inr ⟨Option.some.inj hsaved, hhead⟩
        · split at h
          · exact .inl h
          · exact hrest h .inl
      · split at h
        · next hmatch =>
          refine hrest h fun hsaved => .inr ⟨Option.some.inj hsaved, fun e' he' => .inr ?_⟩
          obtain rfl := Option.some.inj (he.symm.trans he')
          exact Text.endsIn_iff_drop.mpr hmatch.2.2
        · exact hrest h .inl
    · next he =>
      refine hrest h fun hsaved => ?_
      obtain hold | ⟨-, hnew⟩ := Option.or_eq_some_iff.mp hsaved
      · exact .inl hold
      · refine .inr ⟨Option.some.inj hnew, fun e he' => ?_⟩
        rw [he] at he'
        cases he'

theorem leadsTo_program {type : Text × MimeClass} :
    LeadsTo Handler.Program type ↔ ProgramType type := by
  obtain ⟨name, cls⟩ := type
  cases cls with
  | file | external => rfl
  | special =>
    rw [LeadsTo, ProgramType]
    split
    · next hcgi => exact iff_of_true trivial hcgi
    · next hcgi => exact iff_of_false And.right hcgi

theorem Control.Harmless.avoids {s : Text} (h : c.Harmless s) (base : Text) :
    c.Avoids Handler.Program (base ++ s) := by
  intro headers type ht hp
  obtain hnone | ⟨m, hm, rfl, hends⟩ := getMimeFrom_saved ht
  · cases hnone
  · obtain ⟨e, he, hheader, hle, hnot⟩ := h m hm (leadsTo_program.mp hp)
    obtain hh | hend := hends e he
    · exact hheader hh
    · exact hnot ((Text.endsIn_append hle).mp hend)

theorem Control.HarmlessPage.avoidsPage {s : Text} (h : c.HarmlessPage env s) :
    c.AvoidsPage env Handler.Program s :=
  ⟨h.1.avoids [], fun hdir name hname => (h.2 hdir name hname).avoids⟩

theorem filesIn_errorFiles (env : RequestEnv) (req : Request) :
    c.FilesIn (c.errorFiles env req) := by
  rintro f (hf | hf)
  all_goals
    rw [Control.errorFiles, List.reduceOption_mem_iff, hf]
    simp

/-- What the handling of a request keeps: the number in the record, and, for a `quiet` request,
that its error file is a known one and no program was called. -/
abbrev KeepsId (env : RequestEnv) (req : Request) (c : Control) (sid : ℤ) (quiet : Prop)
    (st : RequestState) : Prop :=
  Steady (c.errorFiles env req) Handler.Program (fun id _ => id = sid) quiet st

namespace KeepsId

/-- The loop looks at the path, and then at error files. -/
theorem requestLoop {n : ℕ} (h : KeepsId env req c sid quiet st)
    (hpath : quiet → 0 < n → st.errorFile = none → c.HarmlessPage env st.pathTranslated)
    (hfiles : quiet → ∀ f ∈ c.errorFiles env req, c.HarmlessPage env (f.take (pathLen - 1))) :
    KeepsId env req c sid quiet (requestLoop env req c n st).2 := by
  induction n generalizing st with
  | zero => exact ⟨h.session, h.errorFile, h.handlers⟩
  | succ n ih =>
    have hround : KeepsId env req c sid quiet
        (Httpd.processPathTranslated env req c (useErrorFile st)).2 := by
      rw [useErrorFile]
      split
      · next f hf =>
        exact Steady.processPathTranslated (filesIn_errorFiles env req)
          ⟨h.session, fun _ f hf => (Option.not_mem_none f hf).elim, h.handlers⟩ fun hq =>
            (hfiles hq f (h.errorFile hq f hf)).avoidsPage
      · next hnone =>
        exact h.processPathTranslated (filesIn_errorFiles env req) fun hq =>
          (hpath hq n.succ_pos hnone).avoidsPage
    rw [Httpd.requestLoop]
    split
    next s st' heq =>
      rw [heq] at hround
      split
      · next hagain =>
        refine ih hround fun _ hpos hnone => ?_
        obtain hzero | hsome := hagain.2
        · exact absurd hzero hpos.ne'
        · rw [hnone] at hsome
          cases hsome
      · exact hround

/-- A check of the realm that fails leads to a page that is one of the error files. -/
theorem checkLogin (h : KeepsId env req c sid quiet st) :
    KeepsId env req c sid quiet (checkLogin env c req st) := by
  rw [Httpd.checkLogin]
  split
  · next hrealm =>
    refine ⟨h.session, fun _ f hf => List.reduceOption_mem_iff.mpr ?_, h.handlers⟩
    have hfile : c.error401File = some f := hf
    simp [hrealm, hfile]
  · exact h

/-- A quiet request is not refused for its session. -/
theorem checkAccess (h : KeepsId env req c st.sessionid quiet st)
    (hquiet : quiet → c.sessionControl = true → ¬ sessionExt
      (Text.afterLast '.' st.pathTranslated)) :
    KeepsId env req c
      (findSession env c (Text.afterLast '.' st.pathTranslated) st).sessionid quiet
      (checkAccess env c req st) := by
  have hfound : ∀ pStr, KeepsId env req c (findSession env c pStr st).sessionid quiet
      (findSession env c pStr st) := by
    intro pStr
    rw [findSession]
    split
    · exact ⟨rfl, h.errorFile, h.handlers⟩
    · exact h
  simp only [Httpd.checkAccess]
  split
  · next hext =>
    split
    · exact checkLogin ⟨rfl, (hfound _).errorFile, (hfound _).handlers⟩
    · exact ⟨rfl, fun hq => absurd hext.2 (hquiet hq hext.1), (hfound _).handlers⟩
  · exact (hfound _).checkLogin

/-- The end of `process_request`. -/
theorem handled (h : KeepsId env req c sid quiet st)
    (hno : quiet → c.NoProgram env req st.pathTranslated) :
    KeepsId env req c sid quiet (if st.status ≠ 0 ∧ st.errorFile = none then (1, st)
      else Httpd.requestLoop env req c 3 st : ℤ × RequestState).2 := by
  split
  · exact h
  · exact h.requestLoop (fun hq _ _ => (hno hq).1) fun hq => (hno hq).2

end KeepsId

theorem checkAccess_pathTranslated :
    (checkAccess env c req st).pathTranslated = st.pathTranslated := by
  simp only [checkAccess, checkLogin, findSession]
  split_ifs <;> rfl

end Steady

variable (env : RequestEnv) {virtuals : List Virtual} {path : Text}

theorem findSession_sessionid (c : Control) (pStr : Option Text) (st : RequestState) :
    (findSession env c pStr st).sessionid =
      if c.sessionControl = true ∧ ∃ name ∈ c.sessionFilter, pStr = some name then
        env.getSessionId
      else st.sessionid := by
  rw [findSession]
  split
  · rfl
  · rfl

/-- The number is that of the peer if it was looked up, and else what the last request has left. -/
def Request.idOf (env : RequestEnv) (virtuals : List Virtual) (req : Request) : ℤ :=
  if req.LooksUp virtuals then env.getSessionId else req.sessionid

theorem idOf_eq (h : req.target virtuals = some (c, path)) :
    req.idOf env virtuals =
      if checkPath c.allowDotfiles req.path = true ∧ c.sessionControl = true ∧
          ∃ name ∈ c.sessionFilter, Text.afterLast '.' path = some name then env.getSessionId
      else req.sessionid := by
  refine if_congr ?_ rfl rfl
  rw [Request.LooksUp, h]
  simp

/-- A request whose session is not checked and that no program can answer calls none. -/
theorem processRequest_steady {quiet : Prop} (h : req.target virtuals = some (c, path))
    (hext : quiet → c.sessionControl = true →
      ¬ (checkPath c.allowDotfiles req.path = true ∧ sessionExt (Text.afterLast '.' path)))
    (hno : quiet → c.NoProgram env req path) :
    KeepsId env req c (req.idOf env virtuals) quiet
      (processRequest env virtuals req).2 := by
  rw [idOf_eq env h]
  obtain ⟨v, hvs, r, hreal, hr⟩ : ∃ v, findVs virtuals req.host = some v ∧
      ∃ r, faketoreal req.path req.host pathLen v.controls = some r ∧ (r.1, r.2.2) = (c, path) := by
    simpa [Request.target, Option.bind_eq_some_iff] using h
  obtain ⟨c, locationLength, path⟩ := r
  obtain ⟨rfl, rfl⟩ := Prod.mk.inj hr
  rw [processRequest, processPath, hvs]
  simp only [hreal]
  obtain ⟨start, hstart⟩ : ∃ st, st = { req.start with
      locationLength := locationLength, pathTranslated := path } := ⟨_, rfl⟩
  have hsteady : KeepsId env req c start.sessionid quiet start := by
    rw [hstart]
    exact ⟨rfl, fun _ f hf => (Option.not_mem_none f hf).elim,
      fun _ _ h => absurd h List.not_mem_nil⟩
  have hpath : start.pathTranslated = path := by rw [hstart]
  have hsessionid : start.sessionid = req.sessionid := by
    rw [hstart]
    rfl
  rw [← hstart, ← hsessionid]
  simp only [← hpath] at hext hno ⊢
  cases hcheck : checkPath c.allowDotfiles req.path with
  | true =>
    have haccess := hsteady.checkAccess fun hq hcontrol hcheck' =>
      hext hq hcontrol ⟨hcheck, hcheck'⟩
    rw [findSession_sessionid] at haccess
    simp only [if_true, true_and]
    refine haccess.handled fun hq => ?_
    rw [checkAccess_pathTranslated]
    exact hno hq
  | false =>
    simp only [Bool.false_eq_true, if_false, false_and]
    exact KeepsId.handled (hsteady.notFound (filesIn_errorFiles env req)) hno

theorem processRequest_sessionid (virtuals : List Virtual) (req : Request) :
    (processRequest env virtuals req).2.sessionid = req.idOf env virtuals := by
  cases htarget : req.target virtuals with
  | some t => exact (processRequest_steady env htarget False.elim False.elim).session
  | none =>
    have hid : req.idOf env virtuals = req.sessionid := by
      refine if_neg ?_
      rintro ⟨t, ht, -⟩
      rw [htarget] at ht
      cases ht
    rw [hid, processRequest, processPath]
    cases hvs : findVs virtuals req.host with
    | none => rfl
    | some v =>
      have hreal : faketoreal req.path req.host pathLen v.controls = none := by
        cases hr : faketoreal req.path req.host pathLen v.controls with
        | none => rfl
        | some r => simp [Request.target, hvs, hr] at htarget
      simp only [hreal]
      rfl

theorem eq_of_mem_usedIds {env : RequestEnv} {id : ℤ} (h : id ∈ usedIds env virtuals req) :
    id = req.idOf env virtuals := by
  rw [usedIds] at h
  split at h
  · next c path htarget =>
    simp only at h
    split at h
    · rw [List.mem_append] at h
      obtain h | h := h
      · split at h
        · next hcheck =>
          rw [List.mem_singleton.mp h, findSession_sessionid, idOf_eq env htarget]
          simp only [hcheck.1, true_and]
          rfl
        · cases h
      · split at h
        · obtain ⟨-, -, rfl⟩ := List.mem_map.mp h
          exact processRequest_sessionid env virtuals req
        · cases h
    · cases h
  · cases h

theorem usedIds_eq_nil {env : RequestEnv} (h : req.NeedsNone env virtuals) :
    usedIds env virtuals req = [] := by
  rw [usedIds]
  split
  · next c path htarget =>
    simp only
    split
    · next hcontrol =>
      obtain ⟨hcheck, hprogram⟩ := h _ htarget hcontrol
      rw [if_neg hcheck, List.nil_append]
      split
      · next hspawned =>
        have hno : c.NoProgram env req path :=
          hprogram.resolve_left (by simp [hspawned])
        have hhandlers := (processRequest_steady env htarget
          (fun _ _ => hcheck) fun _ => hno).handlers trivial
        rw [List.map_eq_nil_iff, List.filter_eq_nil_iff]
        exact fun handler hmem => by simpa using hhandlers handler hmem
      · rfl
    · rfl
  · rfl

/-- The server between requests: the global `sessionid` is kept. -/
structure Served where
  sessionid : ℤ
  sessions : Sessions

/-- A request that the record serves, or something that happens to the sessions meanwhile. -/
inductive Service where
  | request (peer : InAddr) (env : RequestEnv) (req : Request)
  | session (e : SessionEvent)

section Service

variable (sessionMax : ℕ) (idleTime : ℤ) (virtuals : List Virtual)

section

variable (s : Served) (peer : InAddr) (env : RequestEnv) (req : Request)

/-- What `get_session_id` returns for a peer, and the files it leaves. -/
def Served.lookup : ℤ × SessionStore :=
  getSessionId sessionMax idleTime s.sessions.uptime.val (inetNtoa peer) s.sessions.store

def Served.store : SessionStore :=
  if req.LooksUp virtuals then (s.lookup sessionMax idleTime peer).2 else s.sessions.store

/-- The functions of `web-session.c` during a request. -/
def Served.calls : RequestEnv :=
  { env with
    getSessionId := (s.lookup sessionMax idleTime peer).1
    checkSession := checkSession sessionMax (s.store sessionMax idleTime virtuals peer req)
    getSessiongrp := getSessiongrp sessionMax (s.store sessionMax idleTime virtuals peer req) }

/-- A request in the record: `init_request` leaves the number there. -/
def Served.request : Request := { req with sessionid := s.sessionid }

def Served.step : Service → Served
  | .request peer env req =>
    let env := s.calls sessionMax idleTime virtuals peer env req
    ⟨(processRequest env virtuals (s.request req)).2.sessionid,
      { s.sessions with store := s.store sessionMax idleTime virtuals peer req }⟩
  | .session e => { s with sessions := s.sessions.step sessionMax idleTime e }

def ValidId (id : ℤ) : Prop := 1 ≤ id ∧ id ≤ sessionMax

instance (id : ℤ) : Decidable (ValidId sessionMax id) := inferInstanceAs (Decidable (_ ∧ _))

/-- Every number that the request uses is what `get_session_id` has returned for its peer during
this request, or it is not the number of a slot. -/
def Served.Belongs : Service → Prop
  | .request peer env req =>
    ∀ id ∈ usedIds (s.calls sessionMax idleTime virtuals peer env req) virtuals (s.request req),
      req.LooksUp virtuals ∧ id = (s.lookup sessionMax idleTime peer).1 ∨
        ¬ ValidId sessionMax id
  | .session _ => True

instance (s : Served) : DecidablePred (s.Belongs sessionMax idleTime virtuals)
  | .request _ _ _ => inferInstanceAs (Decidable (∀ _ ∈ _, _))
  | .session _ => inferInstanceAs (Decidable True)

/-- The session is looked up, or the record has no number of a slot, or the request has no use
for one. -/
def Served.OwnId : Service → Prop
  | .request _ env req =>
    req.LooksUp virtuals ∨ ¬ ValidId sessionMax s.sessionid ∨ req.NeedsNone env virtuals
  | .session _ => True

end

instance (s : Served) : DecidablePred (s.OwnId sessionMax virtuals)
  | .request _ _ _ => inferInstanceAs (Decidable (_ ∨ _ ∨ _))
  | .session _ => inferInstanceAs (Decidable True)

theorem Served.OwnId.belongs {s : Served} {e : Service} (h : s.OwnId sessionMax virtuals e) :
    s.Belongs sessionMax idleTime virtuals e := by
  cases e with
  | session e => trivial
  | request peer env req =>
    intro id hid
    -- the record only adds the number, which the look-up does not depend on
    have hsame : (s.request req).LooksUp virtuals ↔ req.LooksUp virtuals := Iff.rfl
    have hvalue := eq_of_mem_usedIds hid
    rw [Request.idOf] at hvalue
    split at hvalue
    · next hlooks => exact .inl ⟨hlooks, hvalue⟩
    · next hlooks =>
      obtain hlooks' | hinvalid | hnone := h
      · exact absurd hlooks' hlooks
      · rw [hvalue]
        exact .inr hinvalid
      · have hnil := @usedIds_eq_nil (s.request req) virtuals
          (s.calls sessionMax idleTime virtuals peer env req) hnone
        rw [hnil] at hid
        cases hid

end Service

/-- In a series of requests that one record serves, whatever it held before, every request
uses the number of its own peer or none of a slot, if each one looks it up, finds no
number of a slot in the record, or has no use for one. -/
theorem sessionid_belongs (sessionMax : ℕ) (idleTime : ℤ) (virtuals : List Virtual)
    (s : Served) (events : List Service)
    (h : Machine.Along (Served.step sessionMax idleTime virtuals)
      (Served.OwnId sessionMax virtuals) s events) :
    Machine.Along (Served.step sessionMax idleTime virtuals)
      (Served.Belongs sessionMax idleTime virtuals) s events :=
  h.imp fun _ _ => Served.OwnId.belongs sessionMax idleTime virtuals

theorem configBin_le : "/config.bin".toList.length ≤ strLen := by decide +kernel

/-- The record keeps slot 1 of the first peer while it serves a picture to the second one, which
gets its own for a page. -/
theorem sessionid_belongs_picture :
    Machine.Along (Served.step 8 300 (httpdPhp [] "router".toList))
      (Served.Belongs 8 300 (httpdPhp [] "router".toList))
      ⟨0, .start ⟨1, by decide, by decide⟩⟩
      [.request ⟨192, 168, 0, 2⟩ emptyStore (anonymous "/index.php".toList (by decide +kernel)),
        .request ⟨192, 168, 0, 3⟩ emptyStore (anonymous "/pic/logo.gif".toList (by decide +kernel)),
        .request ⟨192, 168, 0, 3⟩ emptyStore (anonymous "/tools.xgi".toList (by decide +kernel))] :=
  sessionid_belongs 8 300 _ _ _ (by decide +kernel)

/-- On the generated configuration a peer gets slot 1 for a page, and the next peer asks for a file
with an extension that is not in the session filter: `/sbin/xgi` is started with the session
of the first one. -/
theorem sessionid_not_belongs :
    ¬ Machine.Along (Served.step 8 300 (httpdPhp "s".toList "router".toList))
      (Served.Belongs 8 300 (httpdPhp "s".toList "router".toList))
      ⟨0, .start ⟨1, by decide, by decide⟩⟩
      [.request ⟨192, 168, 0, 2⟩ emptyStore
          (anonymous "/index.php".toList (by decide +kernel)),
        .request ⟨192, 168, 0, 3⟩ emptyStore
          (anonymous "/config.bin".toList configBin_le)] := by
  decide +kernel

end Wbr1310.Httpd
