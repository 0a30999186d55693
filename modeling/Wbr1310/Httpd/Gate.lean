import Wbr1310.Httpd.Dispatch

/-!
# The session check and the dispatch

`process_path` decides by the text behind the last dot whether a request needs a session,
and `get_mime` decides by the ending of the path which handler gets it. The two do not
agree on the generated configuration; this module says exactly when they do.
-/

namespace Wbr1310.Httpd

open Lib Option

variable {env : RequestEnv} {req : Request} {c : Control} {st : RequestState}

def globalSite : Control := globalControl.foldl Control.set .fresh

/-- The control for `/`. -/
def rootSite (authtype hostname : Text) : Control :=
  (rootControl authtype hostname).foldl Control.set globalSite.child

/-- The control for `/HNAP1`. -/
def hnapSite : Control := hnapControl.foldl Control.set globalSite.child

theorem rootSite_eq (authtype hostname : Text) :
    rootSite authtype hostname =
      { globalSite with
        locations := some "/www".toList
        aliasPath := some []
        sessionControl := true
        sessionFilter := ["_int".toList, "xgi".toList, "php".toList]
        realm := if authtype ≠ "s".toList then some hostname else none
        userfile := if authtype ≠ "s".toList then some "/var/etc/httpasswd".toList else none
        error401File :=
          if authtype ≠ "s".toList then some "/www/sys/not_auth.php".toList else none } := by
  simp only [rootSite, rootControl]
  split <;> rfl

theorem httpdPhp_eq (authtype hostname : Text) :
    httpdPhp authtype hostname =
      [⟨none, true, [hnapSite, rootSite authtype hostname, globalSite]⟩] := by
  have hlocated : (rootSite authtype hostname).locations.isNone = false := by
    rw [rootSite_eq]
    rfl
  have hroot : configControl (configControl [] globalControl) (rootControl authtype hostname) =
      [rootSite authtype hostname, globalSite] := rfl
  have hfind : [rootSite authtype hostname, globalSite].find? (·.locations.isNone) =
      some globalSite := by
    rw [List.find?_cons_of_neg (by simp [hlocated])]
    rfl
  simp only [httpdPhp, hroot]
  rw [configControl, hfind]
  rfl

theorem globalSite_siteControl : SiteControl globalSite where
  mimes := by constructor <;> decide +kernel
  error404File := rfl
  autoIndexCommand := rfl
  pathInfoOk := rfl
  allowDotfiles := rfl
  indexNames := by decide +kernel

theorem hnapSite_siteControl : SiteControl hnapSite where
  mimes := by constructor <;> decide +kernel
  error404File := rfl
  autoIndexCommand := rfl
  pathInfoOk := rfl
  allowDotfiles := rfl
  indexNames := by decide +kernel

theorem rootSite_siteControl (authtype hostname : Text) :
    SiteControl (rootSite authtype hostname) := by
  rw [rootSite_eq]
  exact ⟨globalSite_siteControl.mimes, rfl, rfl, rfl, rfl, globalSite_siteControl.indexNames⟩

/-- `process_request` after `process_path`. -/
def finishPath (env : RequestEnv) (req : Request) (c : Control) (st : RequestState) :
    RequestState :=
  if st.status ≠ 0 ∧ st.errorFile = none then st else (requestLoop env req c 3 st).2

/-- The next round handles the error file, which calls no handler. -/
theorem useErrorFile_spec (h : ¬ Called st) :
    (useErrorFile st).errorFile = none ∧ (useErrorFile st).sessionPassed = st.sessionPassed ∧
      ¬ Called (useErrorFile st) := by
  rw [useErrorFile]
  split
  · exact ⟨rfl, rfl, h⟩
  · next hnone => exact ⟨hnone, rfl, h⟩

section

variable (hc : SiteControl c) (hcalled : ¬ Called st)

include hc hcalled

theorem requestLoop_eq :
    requestLoop env req c 3 st = processPathTranslated env req c (useErrorFile st) := by
  obtain ⟨herror, -, hstart⟩ := useErrorFile_spec hcalled
  have hnone := (processPathTranslated_spec env req hc herror hstart).2.1
  rw [requestLoop]
  split
  next s r heq =>
    rw [heq] at hnone
    have hlast : ¬ (s = 1 ∧ (2 = 0 ∨ r.errorFile.isSome = true)) := by
      simp [show r.errorFile = none from hnone]
    rw [if_neg hlast, heq]

theorem finishPath_sessionPassed : (finishPath env req c st).sessionPassed = st.sessionPassed := by
  obtain ⟨herror, hpassed, hstart⟩ := useErrorFile_spec hcalled
  simp only [finishPath]
  split
  · rfl
  · rw [requestLoop_eq hc hcalled, (processPathTranslated_spec env req hc herror hstart).1, hpassed]

theorem finishPath_denied (hstatus : st.status ≠ 0)
    (hfile : ∀ file, st.errorFile = some file → ¬ PrivilegedPath (file.take (pathLen - 1))) :
    ¬ Called (finishPath env req c st) := by
  obtain ⟨hnone, -, hstart⟩ := useErrorFile_spec hcalled
  cases herror : st.errorFile with
  | none => rwa [finishPath, if_pos ⟨hstatus, herror⟩]
  | some file =>
    rw [finishPath, if_neg (by simp [herror]), requestLoop_eq hc hcalled]
    intro hp
    have hpath := (processPathTranslated_spec env req hc hnone hstart).2.2 hp
    rw [useErrorFile, herror] at hpath
    exact hfile file herror hpath

theorem finishPath_called (hstatus : st.status = 0) (herror : st.errorFile = none)
    (hslash : st.pathTranslated.head? = some '/') (hpos : 0 < st.locationLength)
    (hle : st.locationLength ≤ st.pathTranslated.length) : Called (finishPath env req c st) ↔
      PrivilegedPath st.pathTranslated ∧ (env.openFile st.pathTranslated).Usable := by
  have huse : useErrorFile st = st := by
    rw [useErrorFile, herror]
  rw [finishPath, if_neg (fun h => h.1 hstatus), requestLoop_eq hc hcalled, huse]
  constructor
  · intro hp
    have hpath := (processPathTranslated_spec env req hc herror hcalled).2.2 hp
    exact ⟨hpath,
      (processPathTranslated_called hc hcalled hstatus hpath hslash hpos hle).mp hp⟩
  · rintro ⟨hpath, husable⟩
    exact (processPathTranslated_called hc hcalled hstatus hpath hslash hpos hle).mpr husable

end

/-- The path belongs to the control for `/HNAP1`. -/
def UnderHnap (path : Text) : Prop := (dirmatch path "/HNAP1".toList).isSome

instance (path : Text) : Decidable (UnderHnap path) := inferInstanceAs (Decidable (_ = _))

/-- The path of the file: both controls put `/www` in front. -/
def wwwPath (path : Text) : Text := "/www".toList ++ path

theorem wwwPath_eq (path : Text) : wwwPath path = "/www".toList ++ path := rfl

def siteControl (authtype hostname path : Text) : Control :=
  if UnderHnap path then hnapSite else rootSite authtype hostname

def siteState (req : Request) : RequestState :=
  { req.start with
    locationLength := if UnderHnap req.path then 10 else 4
    pathTranslated := wwwPath req.path }

theorem siteControl_siteControl (authtype hostname path : Text) :
    SiteControl (siteControl authtype hostname path) := by
  rw [siteControl]
  split
  · exact hnapSite_siteControl
  · exact rootSite_siteControl authtype hostname

theorem realPath_location {location s host : Text} (hslash : location.head? = some '/')
    (hexpand : expandHostname host location (pathLen - 1) = location)
    (hlen : location.length + 1 + s.length ≤ pathLen) :
    realPath c location s (some host) pathLen = (location.length, location ++ s) := by
  have hrest : s.length ≤ pathLen - (location.length + 1) := by omega
  simp only [realPath, hexpand, hslash, true_or, if_true, List.take_of_length_le hrest]

theorem append_of_dirmatch {s t rest : Text} (h : dirmatch s t = some rest) : t ++ rest = s := by
  simp only [dirmatch] at h
  split at h
  · next hnil =>
    obtain rfl := some.inj h
    rw [hnil, List.nil_append]
  · split at h
    · next hmatch =>
      obtain rfl := some.inj h
      obtain ⟨⟨rest, rfl⟩, -⟩ := hmatch
      rw [List.drop_left]
    · cases h

theorem faketoreal_site (authtype hostname host : Text) (req : Request) :
    faketoreal req.path (some host) pathLen
        [hnapSite, rootSite authtype hostname, globalSite] =
      some (siteControl authtype hostname req.path, (siteState req).locationLength,
        wwwPath req.path) := by
  have hlen : req.path.length ≤ 400 := req.path_le
  have hpathLen : pathLen = 800 := rfl
  have hhnap : hnapSite.locations = some "/www/HNAP1".toList ∧
    hnapSite.aliasPath = some "/HNAP1".toList ∧ hnapSite.exactMatch = false := ⟨rfl, rfl, rfl⟩
  have hroot : (rootSite authtype hostname).locations = some "/www".toList ∧
      (rootSite authtype hostname).aliasPath = some [] ∧
      (rootSite authtype hostname).exactMatch = false := by
    rw [rootSite_eq]
    exact ⟨rfl, rfl, rfl⟩
  simp only [faketoreal, hhnap, hroot, siteControl, siteState]
  cases hmatch : dirmatch req.path "/HNAP1".toList with
  | some s =>
    have hunder : UnderHnap req.path := by rw [UnderHnap, hmatch]; rfl
    have hpath := append_of_dirmatch hmatch
    have hs : s.length ≤ 400 := by
      have := congrArg List.length hpath
      rw [List.length_append] at this
      omega
    have hreal : realPath hnapSite "/www/HNAP1".toList s (some host) pathLen =
        ("/www/HNAP1".toList.length, "/www/HNAP1".toList ++ s) :=
      realPath_location rfl rfl (by rw [hpathLen]; simp; omega)
    have hwww : wwwPath req.path = "/www/HNAP1".toList ++ s := by
      rw [wwwPath_eq, ← hpath]
      rfl
    simp only [Bool.false_eq_true, if_false, hreal, if_pos hunder, hwww]
    rfl
  | none =>
    have hunder : ¬ UnderHnap req.path := by rw [UnderHnap, hmatch]; decide
    have hreal : realPath (rootSite authtype hostname) "/www".toList req.path (some host)
        pathLen = ("/www".toList.length, "/www".toList ++ req.path) :=
      realPath_location rfl rfl (by rw [hpathLen]; simp; omega)
    simp only [Bool.false_eq_true, if_false, if_neg hunder, dirmatch, if_true, hreal,
      wwwPath_eq]
    rfl

theorem processPath_site (env : RequestEnv) (authtype hostname : Text) {req : Request} {host : Text}
    (hhost : req.host = some host) :
    processPath env (httpdPhp authtype hostname) req =
      .found (siteControl authtype hostname req.path)
        (if checkPath false req.path then
          checkAccess env (siteControl authtype hostname req.path) req (siteState req)
        else notFound (siteControl authtype hostname req.path) (siteState req)) := by
  have hvs : findVs (httpdPhp authtype hostname) (some host) =
      some ⟨none, true, [hnapSite, rootSite authtype hostname, globalSite]⟩ := by
    rw [httpdPhp_eq]
    rfl
  have hdots := (siteControl_siteControl authtype hostname req.path).allowDotfiles
  simp only [processPath, hhost, hvs, faketoreal_site, hdots]
  split <;> rfl

theorem processRequest_site (env : RequestEnv) (authtype hostname : Text) {req : Request}
    {host : Text} (hhost : req.host = some host) :
    (processRequest env (httpdPhp authtype hostname) req).2 =
      finishPath env req (siteControl authtype hostname req.path)
        (if checkPath false req.path then
          checkAccess env (siteControl authtype hostname req.path) req (siteState req)
        else notFound (siteControl authtype hostname req.path) (siteState req)) := by
  simp only [processRequest, processPath_site env authtype hostname hhost]
  generalize (if checkPath false req.path then
    checkAccess env (siteControl authtype hostname req.path) req (siteState req)
    else notFound (siteControl authtype hostname req.path) (siteState req)) = st
  simp only [finishPath]
  split <;> rfl

theorem checkAccess_hnapSite (env : RequestEnv) (req : Request) (st : RequestState) :
    checkAccess env hnapSite req st = st := by
  have hsession : hnapSite.sessionControl = false := rfl
  have hrealm : hnapSite.realm = none := rfl
  simp [checkAccess, findSession, checkLogin, hsession, hrealm]

def LoginRefused (authtype : Text) (req : Request) : Prop :=
  authtype ≠ "s".toList ∧
    ∃ a, req.authorization = some a ∧ ¬ Text.EqIgnoreCase (a.take 6) "basic ".toList

/-- With session control only an Authorization of another kind fails the check. -/
theorem checkRealm_eq_false_iff (env : RequestEnv) (req : Request)
    (hsession : c.sessionControl = true) :
    checkRealm env c req = false ↔ (c.realm ≠ none ∧ c.userfile ≠ none) ∧
      ∃ a, req.authorization = some a ∧ ¬ Text.EqIgnoreCase (a.take 6) "basic ".toList := by
  simp only [checkRealm, hsession, if_true]
  split
  · next hopen => exact iff_of_false Bool.noConfusion fun h => not_or.mpr h.1 hopen
  · next hclosed =>
    split
    · next hauth =>
      refine iff_of_false Bool.noConfusion ?_
      rintro ⟨-, a, ha, -⟩
      cases hauth.symm.trans ha
    · next a hauth =>
      split
      · next hkind => exact iff_of_true rfl ⟨not_or.mp hclosed, a, hauth, hkind⟩
      · next hkind =>
        refine iff_of_false Bool.noConfusion ?_
        rintro ⟨-, a', ha', hother⟩
        obtain rfl := some.inj (hauth.symm.trans ha')
        exact hkind hother

theorem ite_some_ne_none {α : Type*} {p : Prop} [Decidable p] {a : α} :
    (if p then some a else none) ≠ none ↔ p := by
  split <;> simp_all

theorem loginRefused_iff (env : RequestEnv) (authtype hostname : Text) (req : Request) :
    ((rootSite authtype hostname).realm.isSome ∧
        checkRealm env (rootSite authtype hostname) req = false) ↔
      LoginRefused authtype req := by
  have hsession : (rootSite authtype hostname).sessionControl = true := by rw [rootSite_eq]
  have hrealm : (rootSite authtype hostname).realm ≠ none ↔ authtype ≠ "s".toList := by
    rw [rootSite_eq]
    exact ite_some_ne_none
  have huserfile : (rootSite authtype hostname).userfile ≠ none ↔ authtype ≠ "s".toList := by
    rw [rootSite_eq]
    exact ite_some_ne_none
  rw [checkRealm_eq_false_iff env req hsession, isSome_iff_ne_none, hrealm, huserfile,
    LoginRefused]
  tauto

theorem not_called_of_handlers (h : st.handlers = []) : ¬ Called st := by
  rintro ⟨handler, hmem, -⟩
  exact nomatch h ▸ hmem

def denied (c : Control) (st : RequestState) : RequestState :=
  { st with errorFile := c.error401File, status := 401 }

theorem not_called_denied (authtype hostname : Text) (hcalled : ¬ Called st) :
    ¬ Called (finishPath env req (rootSite authtype hostname)
      (denied (rootSite authtype hostname) st)) := by
  apply finishPath_denied (rootSite_siteControl authtype hostname)
  · exact hcalled
  · exact Nat.noConfusion
  · intro file hfile
    have herror : (rootSite authtype hostname).error401File = some file := hfile
    rw [rootSite_eq] at herror
    simp only at herror
    split at herror
    · obtain rfl := some.inj herror
      decide +kernel
    · cases herror

theorem findSession_eq (env : RequestEnv) (c : Control) (pStr : Option Text) (st : RequestState) :
    ∃ sessionid, findSession env c pStr st = { st with sessionid := sessionid } := by
  simp only [findSession]
  split
  · exact ⟨_, rfl⟩
  · exact ⟨st.sessionid, rfl⟩

theorem checkAccess_checked (env : RequestEnv) (req : Request) (st : RequestState)
    (hsession : c.sessionControl = true)
    (hext : sessionExt (Text.afterLast '.' st.pathTranslated)) :
    ((checkAccess env c req st).sessionPassed = true ∧
        (checkAccess env c req st).handlers = st.handlers) ∨
      ∃ sessionid, checkAccess env c req st = denied c { st with sessionid := sessionid } := by
  obtain ⟨sessionid, heq⟩ :=
    findSession_eq env c (Text.afterLast '.' st.pathTranslated) st
  simp only [checkAccess, heq, if_pos (And.intro hsession hext)]
  split
  · left
    simp only [checkLogin]
    split <;> exact ⟨rfl, rfl⟩
  · exact .inr ⟨sessionid, rfl⟩

theorem checkAccess_unchecked (env : RequestEnv) (req : Request) (st : RequestState)
    (hext : ¬ sessionExt (Text.afterLast '.' st.pathTranslated)) :
    ∃ sessionid, checkAccess env c req st =
      checkLogin env c req { st with sessionid := sessionid } := by
  obtain ⟨sessionid, heq⟩ :=
    findSession_eq env c (Text.afterLast '.' st.pathTranslated) st
  simp only [checkAccess, heq, if_neg (fun h : _ ∧ _ => hext h.2)]
  exact ⟨sessionid, rfl⟩

/-- The request is turned down before a handler is called: it has no host, `check_path` or
`check_realm` fails, or the file of its path cannot be opened for another reason than that it
is missing. -/
inductive Refused (env : RequestEnv) (authtype : Text) (req : Request) : Prop where
  | host (h : req.host = none)
  | path (h : checkPath false req.path = false)
  | login (hpath : ¬ UnderHnap req.path) (h : LoginRefused authtype req)
  | file (h : ¬ (env.openFile (wwwPath req.path)).Usable)

theorem refused_iff {authtype host : Text} (hhost : req.host = some host)
    (hcheck : checkPath false req.path = true) :
    Refused env authtype req ↔
      (¬ UnderHnap req.path ∧ LoginRefused authtype req) ∨
        ¬ (env.openFile (wwwPath req.path)).Usable := by
  constructor
  · rintro (h | h | ⟨hpath, h⟩ | h)
    · cases hhost.symm.trans h
    · cases hcheck.symm.trans h
    · exact .inl ⟨hpath, h⟩
    · exact .inr h
  · rintro (h | h)
    · exact .login h.1 h.2
    · exact .file h

/-- The session check is made: the path is not under `/HNAP1`, and the text behind its last dot
is `xgi` or `_int`. -/
def SessionChecked (path : Text) : Prop :=
  ¬ UnderHnap path ∧ sessionExt (Text.afterLast '.' (wwwPath path))

theorem gateAgrees_unchecked (hc : SiteControl c) (sessionid : ℤ) :
    GateAgrees (finishPath env req c { siteState req with sessionid := sessionid }) ↔
      ¬ PrivilegedPath (wwwPath req.path) ∨ ¬ (env.openFile (wwwPath req.path)).Usable := by
  have hcalled : ¬ Called { siteState req with sessionid := sessionid } :=
    not_called_of_handlers rfl
  have hlocation : 0 < (siteState req).locationLength ∧
      (siteState req).locationLength ≤ (wwwPath req.path).length := by
    simp only [siteState, wwwPath_eq, List.length_append]
    split
    · next hunder =>
      obtain ⟨s, hs⟩ := isSome_iff_exists.mp hunder
      have := congrArg List.length (append_of_dirmatch hs)
      simp at this ⊢
      omega
    · simp
  have hpassed :
      (finishPath env req c { siteState req with sessionid := sessionid }).sessionPassed = false :=
    finishPath_sessionPassed hc hcalled
  rw [GateAgrees, hpassed, finishPath_called hc hcalled rfl rfl rfl hlocation.1 hlocation.2]
  rw [← not_and_or]
  exact ⟨fun h hp => Bool.false_ne_true (h hp), fun h hp => absurd hp h⟩

theorem gateAgrees_hnapSite (env : RequestEnv) (req : Request) :
    GateAgrees (finishPath env req hnapSite (checkAccess env hnapSite req (siteState req))) ↔
      ¬ PrivilegedPath (wwwPath req.path) ∨ ¬ (env.openFile (wwwPath req.path)).Usable := by
  rw [checkAccess_hnapSite]
  exact gateAgrees_unchecked hnapSite_siteControl req.sessionid

theorem gateAgrees_rootSite (env : RequestEnv) (authtype hostname : Text) (req : Request) :
    GateAgrees (finishPath env req (rootSite authtype hostname)
        (checkAccess env (rootSite authtype hostname) req (siteState req))) ↔
      sessionExt (Text.afterLast '.' (wwwPath req.path)) ∨ ¬ PrivilegedPath (wwwPath req.path) ∨
        LoginRefused authtype req ∨ ¬ (env.openFile (wwwPath req.path)).Usable := by
  have hc := rootSite_siteControl authtype hostname
  have hsession : (rootSite authtype hostname).sessionControl = true := by rw [rootSite_eq]
  rcases Decidable.em (sessionExt (Text.afterLast '.' (wwwPath req.path))) with hext | hext
  · refine iff_of_true (fun hp => ?_) (.inl hext)
    rcases checkAccess_checked env req (siteState req) hsession hext with
      ⟨hpassed, hhandlers⟩ | ⟨sessionid, heq⟩
    · rw [finishPath_sessionPassed hc (not_called_of_handlers hhandlers), hpassed]
    · rw [heq] at hp
      exact absurd hp (not_called_denied authtype hostname (not_called_of_handlers rfl))
  · obtain ⟨sessionid, heq⟩ := checkAccess_unchecked (c := rootSite authtype hostname) env req
      (siteState req) hext
    rw [heq, checkLogin, or_iff_right hext]
    split
    · next hrefused =>
      have hlogin := (loginRefused_iff env authtype hostname req).mp hrefused
      refine iff_of_true (fun hp => absurd hp ?_) (.inr (.inl hlogin))
      exact not_called_denied authtype hostname (not_called_of_handlers rfl)
    · next hrefused =>
      have hlogin := mt (loginRefused_iff env authtype hostname req).mpr hrefused
      rw [gateAgrees_unchecked hc sessionid, or_iff_right hlogin]

/-- On the generated configuration a request that is dispatched to `/sbin/xgi` or to the internal
handler has passed the session check exactly if the check was made, the path has no
privileged ending, or the request is turned down. -/
theorem processRequest_gateAgrees_iff (env : RequestEnv) (authtype hostname : Text)
    (req : Request) :
    GateAgrees (processRequest env (httpdPhp authtype hostname) req).2 ↔
      SessionChecked req.path ∨ ¬ PrivilegedPath (wwwPath req.path) ∨
        Refused env authtype req := by
  cases hhost : req.host with
  | none =>
    refine iff_of_true (fun hp => absurd hp (not_called_of_handlers ?_))
      (.inr (.inr (.host hhost)))
    simp only [processRequest, processPath, hhost, httpdPhp_eq]
    rfl
  | some host =>
    have hc := siteControl_siteControl authtype hostname req.path
    rw [processRequest_site env authtype hostname hhost]
    cases hcheck : checkPath false req.path with
    | false =>
      refine iff_of_true (fun hp => absurd hp ?_) (.inr (.inr (.path hcheck)))
      rw [if_neg Bool.false_ne_true]
      apply finishPath_denied hc (not_called_of_handlers rfl) Nat.noConfusion
      intro file hfile
      cases hc.error404File.symm.trans hfile
    | true =>
      rw [if_pos rfl, refused_iff hhost hcheck, SessionChecked, siteControl]
      split
      · next hunder =>
        rw [gateAgrees_hnapSite]
        simp only [hunder, not_true_eq_false, false_and, false_or]
      · next hunder =>
        rw [gateAgrees_rootSite]
        simp only [hunder, not_false_eq_true, true_and]

def emptyStore : RequestEnv where
  openFile _ := .noent
  getSessionId := -1
  checkSession _ := -1
  getSessiongrp _ := -1
  webuserok _ := false
  spawned := true
  fileStatus := 200

def anonymous (path : Text) (path_le : path.length ≤ strLen) : Request where
  path := path
  url := path
  args := none
  host := some "router".toList
  authorization := none
  headers := ["Host".toList]
  method := .get
  sessionid := 0
  path_le := path_le

/-- An extension without a check, one in capitals and one under `/HNAP1` reach `/sbin/xgi` without
a session. -/
theorem anonymous_not_gateAgrees :
    ¬ GateAgrees (processRequest emptyStore (httpdPhp [] "router".toList)
        (anonymous "/config.bin".toList (by decide +kernel))).2 ∧
      ¬ GateAgrees (processRequest emptyStore (httpdPhp [] "router".toList)
        (anonymous "/tools.XGI".toList (by decide +kernel))).2 ∧
      ¬ GateAgrees (processRequest emptyStore (httpdPhp [] "router".toList)
        (anonymous "/HNAP1/tools.xgi".toList (by decide +kernel))).2 := by
  decide +kernel

end Wbr1310.Httpd
