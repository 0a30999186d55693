import Wbr1310.Httpd.Request

/-!
# Which requests reach a privileged handler

The program `/sbin/xgi` and the internal handler change the settings of the device. For a
control whose types are those of the generated configuration, `process_path_translated`
calls one of them for the paths with a privileged ending that can be opened, and for no
others.
-/

namespace Wbr1310.Httpd

open Lib

variable {env : RequestEnv} {req : Request} {c : Control} {st : RequestState}

/-- The program `/sbin/xgi` and the internal handler. -/
def Handler.Privileged : Handler → Prop
  | .external program => program = "/sbin/xgi".toList
  | .internal => True
  | .cgi => False

instance : DecidablePred Handler.Privileged
  | .external _ => inferInstanceAs (Decidable (_ = _))
  | .internal => inferInstanceAs (Decidable True)
  | .cgi => inferInstanceAs (Decidable False)

def Called (st : RequestState) : Prop := ∃ h ∈ st.handlers, h.Privileged

instance (st : RequestState) : Decidable (Called st) := inferInstanceAs (Decidable (∃ _ ∈ _, _))

/-- If such a handler was called, the session check was made and passed. -/
def GateAgrees (st : RequestState) : Prop := Called st → st.sessionPassed = true

instance (st : RequestState) : Decidable (GateAgrees st) := inferInstanceAs (Decidable (_ → _))

def PrivilegedType : Text × MimeClass → Prop
  | (name, .external) => name = "/sbin/xgi".toList
  | (name, .special) =>
    ¬ Text.EqIgnoreCase name "CGI".toList ∧ Text.EqIgnoreCase name "Internal".toList
  | (_, .file) => False

instance : DecidablePred PrivilegedType
  | (_, .external) => inferInstanceAs (Decidable (_ = _))
  | (_, .special) => inferInstanceAs (Decidable (_ ∧ _))
  | (_, .file) => inferInstanceAs (Decidable False)

def privilegedExts : List Text := ["xgi".toList, "bin".toList, "_int".toList]

theorem ne_nil_of_privileged {e : Text} (he : e ∈ privilegedExts) : e ≠ [] := by
  rintro rfl
  exact absurd he (by decide)

/-- A path that ends in one of them, up to case and with or without a dot. -/
def PrivilegedPath (s : Text) : Prop := ∃ e ∈ privilegedExts, s.EndsIn e

instance : DecidablePred PrivilegedPath := fun _ => inferInstanceAs (Decidable (∃ _ ∈ _, _))

/-- The privileged types of a list have the privileged extensions, and no other extension ends
in one of these. -/
structure SiteMimes (mimes : List Mime) : Prop where
  noHeader : ∀ m ∈ mimes, ∀ e ∈ m.ext, ¬ headerExt e
  ext : ∀ m ∈ mimes, PrivilegedType (m.name, m.cls) → ∃ e ∈ privilegedExts, m.ext = some e
  type : ∀ e ∈ privilegedExts, ∃ m ∈ mimes, m.ext = some e ∧ PrivilegedType (m.name, m.cls) ∧
    ∀ m' ∈ mimes, ∀ e' ∈ m'.ext, e'.EndsIn e → m' = m

/-- What the controls of the generated configuration have in common. -/
structure SiteControl (c : Control) : Prop where
  mimes : SiteMimes c.mimes
  error404File : c.error404File = none
  autoIndexCommand : c.autoIndexCommand = none
  pathInfoOk : c.pathInfoOk = true
  allowDotfiles : c.allowDotfiles = false
  indexNames : ∀ name ∈ c.indexNames, ∀ e ∈ privilegedExts,
    e.length ≤ name.length ∧ ¬ name.EndsIn e

namespace SiteMimes

variable (h : SiteMimes c.mimes) {headers : List Text} {s : Text}
include h

theorem privilegedType_iff {type : Text × MimeClass} (ht : getMime c headers s = some type) :
    PrivilegedType type ↔ PrivilegedPath s := by
  constructor
  · intro hp
    cases getMime_typeOf h.noHeader ht with
    | ending mem ext ends longest =>
      obtain ⟨e, he, hext⟩ := h.ext _ mem hp
      obtain rfl := Option.some.inj (ext.symm.trans hext)
      exact ⟨_, he, ends⟩
    | all mem ext noEnding =>
      obtain ⟨e, he, hext⟩ := h.ext _ mem hp
      cases ext.symm.trans hext
  · rintro ⟨e, he, hends⟩
    obtain ⟨m, hm, hext, hp, honly⟩ := h.type e he
    rw [getMime_of_endsIn h.noHeader hm hext (ne_nil_of_privileged he) hends honly] at ht
    exact Option.some.inj ht ▸ hp

theorem exists_type (headers : List Text) (hs : PrivilegedPath s) :
    ∃ type, getMime c headers s = some type := by
  obtain ⟨e, he, hends⟩ := hs
  obtain ⟨m, hm, hext, -, honly⟩ := h.type e he
  exact ⟨_, getMime_of_endsIn h.noHeader hm hext (ne_nil_of_privileged he) hends honly⟩

end SiteMimes

theorem called_cons (st : RequestState) (h : Handler) :
    Called { st with handlers := h :: st.handlers } ↔ h.Privileged ∨ Called st := by
  simp only [Called, List.exists_mem_cons_iff]

theorem processCgi_called {h : Handler} :
    Called (processCgi env st h).2 ↔ h.Privileged ∨ Called st := by
  simp only [processCgi]
  split
  · exact called_cons st h
  · exact called_cons { st with status := 503 } h

theorem processSpecial_called :
    Called (processSpecial env req c st).2 ↔
      (PrivilegedType (st.contentType, .special) ∧ st.status = 0) ∨ Called st := by
  simp only [processSpecial, PrivilegedType]
  split
  · next hcgi =>
    rw [processCgi_called]
    exact or_congr_left ⟨False.elim, fun h => h.1.1 hcgi⟩
  · next hcgi =>
    split
    · next hstatus => exact (or_iff_right fun h => hstatus h.2).symm
    · next hstatus =>
      split
      · next hinternal =>
        rw [called_cons]
        have hzero := Decidable.not_not.mp hstatus
        exact iff_of_true (.inl trivial) (.inl ⟨⟨hcgi, hinternal⟩, hzero⟩)
      · next hinternal =>
        split <;> exact (or_iff_right fun h => hinternal h.1.2).symm

theorem processFd_called : Called (processFd env req c st).2 ↔ Called st := by
  simp only [processFd]
  split
  · rfl
  · split
    · rfl
    · split <;> rfl

theorem dispatch_called (hc : SiteControl c) :
    Called (dispatch env req c st).2 ↔
      (PrivilegedType (st.contentType, st.cls) ∧ (st.cls = .special → st.status = 0)) ∨
        Called st := by
  simp only [dispatch, hc.pathInfoOk, Bool.true_eq_false, false_and, and_false, if_false]
  cases st.cls with
  | file =>
    simp only [PrivilegedType, false_and, false_or]
    split
    · exact processFd_called
    · rfl
  | special =>
    rw [processSpecial_called]
    simp only [true_implies]
  | external =>
    rw [processCgi_called]
    simp [Handler.Privileged, PrivilegedType]

/-- The handler that a type leads to has the property. -/
def LeadsTo (bad : Handler → Prop) : Text × MimeClass → Prop
  | (name, .external) => bad (.external name)
  | (name, .special) =>
    if Text.EqIgnoreCase name "CGI".toList then bad .cgi
    else Text.EqIgnoreCase name "Internal".toList ∧ bad .internal
  | (_, .file) => False

theorem LeadsTo.exists_handler {bad : Handler → Prop} {type : Text × MimeClass}
    (h : LeadsTo bad type) : ∃ handler, bad handler := by
  obtain ⟨name, cls⟩ := type
  cases cls with
  | file => exact h.elim
  | external => exact ⟨_, h⟩
  | special =>
    rw [LeadsTo] at h
    split at h
    · exact ⟨_, h⟩
    · exact ⟨_, h.2⟩

/-- What the handling of a path keeps: what is known of the session, and, for a `quiet` request,
that its error file is one of `files` and that no handler with the property is called. -/
structure Steady (files : List Text) (bad : Handler → Prop) (same : ℤ → Bool → Prop)
    (quiet : Prop) (st : RequestState) : Prop where
  session : same st.sessionid st.sessionPassed
  errorFile : quiet → ∀ f ∈ st.errorFile, f ∈ files
  handlers : quiet → ∀ h ∈ st.handlers, ¬ bad h

/-- The error files of a control that do not depend on the request are among the given ones. -/
def Control.FilesIn (c : Control) (files : List Text) : Prop :=
  ∀ f, c.error404File = some f ∨ c.autoIndexCommand = some f → f ∈ files

/-- The name does not lead to a handler with the property. -/
def Control.Avoids (c : Control) (bad : Handler → Prop) (name : Text) : Prop :=
  ∀ headers type, getMime c headers name = some type → ¬ LeadsTo bad type

/-- The path does not lead to such a handler, and neither do the indexes if it is a directory. -/
def Control.AvoidsPage (c : Control) (env : RequestEnv) (bad : Handler → Prop) (s : Text) : Prop :=
  c.Avoids bad s ∧ (env.openFile (s.take (s.length - trailingSlashes s)) = .opened .directory →
    ∀ name ∈ c.indexNames, ∀ base, c.Avoids bad (base ++ name))

/-- Only the path and the kind of the file are changed, and a directory is one that was opened. -/
theorem getPathInfo_keeps (env : RequestEnv) (st : RequestState) :
    ∃ p args kind, (getPathInfo env st).2 =
        { st with pathTranslated := p, pathArgs := args, kind := kind } ∧
      ((getPathInfo env st).1 = true → st.cls = .file → kind = .directory →
        env.openFile (st.pathTranslated.take
          (st.pathTranslated.length - trailingSlashes st.pathTranslated)) =
            .opened .directory) := by
  rw [getPathInfo]
  split
  · exact ⟨_, _, _, rfl, nofun⟩
  · simp only
    split
    · exact ⟨_, _, _, rfl, nofun⟩
    · next hcp =>
      split
      · refine ⟨_, _, _, rfl, fun hfound hfile => ?_⟩
        simp [hfile] at hfound
      · exact ⟨_, _, _, rfl, nofun⟩
      · exact ⟨_, _, _, rfl, nofun⟩
      · next kind hopen =>
        refine ⟨_, _, _, rfl, fun _ _ hkind => ?_⟩
        -- the path is cut behind the location, so only its slashes are cut off
        rw [max_eq_left (by omega)] at hopen
        rw [hopen, hkind]

namespace Steady

variable {files : List Text} {bad : Handler → Prop} {same : ℤ → Bool → Prop} {quiet : Prop}

theorem notFound (hc : c.FilesIn files) (h : Steady files bad same quiet st) :
    Steady files bad same quiet (notFound c st) :=
  ⟨h.session, fun _ f hf => hc f (.inl hf), h.handlers⟩

theorem processCgi (h : Steady files bad same quiet st) {handler : Handler}
    (hquiet : quiet → ¬ bad handler) :
    Steady files bad same quiet (processCgi env st handler).2 := by
  have hcalled : quiet → ∀ h ∈ handler :: st.handlers, ¬ bad h := fun hq =>
    List.forall_mem_cons.mpr ⟨hquiet hq, h.handlers hq⟩
  rw [Httpd.processCgi]
  split <;> exact ⟨h.session, h.errorFile, hcalled⟩

section

variable (hc : c.FilesIn files) (h : Steady files bad same quiet st)

include hc h

theorem processSpecial (hquiet : quiet → ¬ LeadsTo bad (st.contentType, .special)) :
    Steady files bad same quiet (processSpecial env req c st).2 := by
  rw [LeadsTo] at hquiet
  rw [Httpd.processSpecial]
  split_ifs at hquiet ⊢ with hcgi _ hinternal
  · exact h.processCgi hquiet
  · exact h
  · refine ⟨h.session, h.errorFile, fun hq => List.forall_mem_cons.mpr ⟨?_, h.handlers hq⟩⟩
    exact fun hbad => hquiet hq ⟨hinternal, hbad⟩
  · exact ⟨h.session, h.errorFile, h.handlers⟩
  · exact h.notFound hc

theorem processFd : Steady files bad same quiet (processFd env req c st).2 := by
  rw [Httpd.processFd]
  split_ifs
  · exact h.notFound hc
  all_goals exact ⟨h.session, h.errorFile, h.handlers⟩

theorem dispatch (hquiet : quiet → ¬ LeadsTo bad (st.contentType, st.cls)) :
    Steady files bad same quiet (dispatch env req c st).2 := by
  rw [Httpd.dispatch]
  split
  · exact h.notFound hc
  · split
    · split
      · exact h.processFd hc
      · exact h.notFound hc
    · next hcls =>
      rw [hcls] at hquiet
      exact h.processSpecial hc hquiet
    · next hcls =>
      rw [hcls] at hquiet
      exact h.processCgi hquiet

theorem appendIndexesFrom (names : List Text) :
    Steady files bad same quiet (appendIndexesFrom env c st names).2 ∧
      ((appendIndexesFrom env c st names).1 = true → ∃ name ∈ names,
        (appendIndexesFrom env c st names).2.pathTranslated = st.pathTranslated ++ name) := by
  induction names with
  | nil => exact ⟨h, nofun⟩
  | cons name names ih =>
    have hrest : _ ∧ (_ → ∃ n ∈ name :: names, _) :=
      ⟨ih.1, fun hfound => (ih.2 hfound).imp fun n hn => ⟨List.mem_cons_of_mem name hn.1, hn.2⟩⟩
    rw [Httpd.appendIndexesFrom]
    split
    · exact hrest
    · split
      · exact hrest
      · exact ⟨h.notFound hc, nofun⟩
      · exact ⟨⟨h.session, h.errorFile, h.handlers⟩, nofun⟩
      · exact ⟨⟨h.session, h.errorFile, h.handlers⟩, fun _ => ⟨name, List.mem_cons_self, rfl⟩⟩

theorem processDirectory
    (hquiet : quiet → ∀ name ∈ c.indexNames, ∀ base, c.Avoids bad (base ++ name)) :
    Steady files bad same quiet (processDirectory env req c st).2 := by
  have hindexed : Steady files bad same quiet { st with isindex := true } :=
    ⟨h.session, h.errorFile, h.handlers⟩
  obtain ⟨hindexes, hname⟩ : Steady files bad same quiet (appendIndexes env c st).2 ∧
      ((appendIndexes env c st).1 = true → ∃ name ∈ c.indexNames,
        (appendIndexes env c st).2.pathTranslated = st.pathTranslated ++ name) :=
    hindexed.appendIndexesFrom hc c.indexNames
  rw [Httpd.processDirectory]
  split
  · exact h
  · split
    · exact ⟨h.session, h.errorFile, h.handlers⟩
    · split
      · next st' heq =>
        rw [heq] at hindexes hname
        obtain ⟨name, hmem, hpath⟩ := hname rfl
        split
        · next type cls hmime =>
          have hdispatched : Steady files bad same quiet
              { st' with contentType := type, cls := cls } :=
            ⟨hindexes.session, hindexes.errorFile, hindexes.handlers⟩
          rw [hpath] at hmime
          exact hdispatched.dispatch hc fun hq => hquiet hq name hmem _ _ _ hmime
        · exact hindexes.notFound hc
      · next st' heq =>
        rw [heq] at hindexes
        split
        · exact hindexes
        · split
          · next command _ hcommand =>
            split
            · exact ⟨hindexes.session, hindexes.errorFile, hindexes.handlers⟩
            · exact ⟨hindexes.session, fun _ f hf => hc f (.inr (hcommand.trans hf)),
                hindexes.handlers⟩
          · exact hindexes.notFound hc

theorem processPathTranslated (hpage : quiet → c.AvoidsPage env bad st.pathTranslated) :
    Steady files bad same quiet (processPathTranslated env req c st).2 := by
  rw [Httpd.processPathTranslated]
  split
  · exact ⟨h.session, h.errorFile, h.handlers⟩
  · split
    · split
      · exact h
      · exact ⟨h.session, h.errorFile, h.handlers⟩
    · split
      · exact h.notFound hc
      · next type cls hmime =>
        have hquiet : quiet → ¬ LeadsTo bad (type, cls) := fun hq => (hpage hq).1 _ _ hmime
        obtain ⟨p, args, kind, hkeeps, hdir⟩ :=
          getPathInfo_keeps env { st with contentType := type, cls := cls }
        have hinfo : Steady files bad same quiet { st with
            contentType := type, cls := cls, pathTranslated := p, pathArgs := args,
            kind := kind } := ⟨h.session, h.errorFile, h.handlers⟩
        split
        · next st' heq =>
          obtain rfl : st' = _ := heq ▸ hkeeps
          exact hinfo.notFound hc
        · next st' heq =>
          obtain rfl : st' = _ := heq ▸ hkeeps
          split
          · next hdirectory =>
            refine hinfo.processDirectory hc fun hq => (hpage hq).2 ?_
            exact hdir (by rw [heq]) hdirectory.1 hdirectory.2
          · exact hinfo.dispatch hc hquiet

end

end Steady

theorem SiteControl.filesIn (hc : SiteControl c) : c.FilesIn [] := by
  rintro f (hf | hf)
  · cases hc.error404File.symm.trans hf
  · cases hc.autoIndexCommand.symm.trans hf

theorem leadsTo_privileged {type : Text × MimeClass} :
    LeadsTo Handler.Privileged type ↔ PrivilegedType type := by
  obtain ⟨name, cls⟩ := type
  cases cls with
  | file | external => rfl
  | special =>
    rw [LeadsTo, PrivilegedType]
    split
    · next hcgi => exact iff_of_false id fun h => h.1 hcgi
    · next hcgi => exact ⟨fun h => ⟨hcgi, h.1⟩, fun h => ⟨h.2, trivial⟩⟩

theorem SiteControl.avoids (hc : SiteControl c) {s : Text} (h : ¬ PrivilegedPath s) :
    c.Avoids Handler.Privileged s := fun _ _ hmime hp =>
  h ((hc.mimes.privilegedType_iff hmime).mp (leadsTo_privileged.mp hp))

theorem not_privilegedPath_index (hc : SiteControl c) {name : Text} (hname : name ∈ c.indexNames)
    (p : Text) : ¬ PrivilegedPath (p ++ name) := by
  rintro ⟨e, he, hends⟩
  obtain ⟨hle, hnot⟩ := hc.indexNames name hname e he
  exact hnot ((Text.endsIn_append hle).mp hends)

/-- A privileged handler is called only for a path that ends in a privileged extension. The
session check is as it was, and no error file is left to handle. -/
theorem processPathTranslated_spec (env : RequestEnv) (req : Request) (hc : SiteControl c)
    (herror : st.errorFile = none) (hcalled : ¬ Called st) :
    (processPathTranslated env req c st).2.sessionPassed = st.sessionPassed ∧
      (processPathTranslated env req c st).2.errorFile = none ∧
      (Called (processPathTranslated env req c st).2 → PrivilegedPath st.pathTranslated) := by
  have hfile : ∀ f ∈ st.errorFile, f ∈ [] := by simp [herror]
  have hany : ∀ type, ¬ LeadsTo (fun _ => False) type := fun _ h =>
    h.exists_handler.elim fun _ => id
  have hsettled : Steady [] (fun _ => False) (fun _ passed => passed = st.sessionPassed) True
      (processPathTranslated env req c st).2 :=
    Steady.processPathTranslated hc.filesIn ⟨rfl, fun _ => hfile, fun _ _ _ => id⟩
      fun _ => ⟨fun _ _ _ => hany _, fun _ _ _ _ _ _ _ => hany _⟩
  have hquiet : Steady [] Handler.Privileged (fun _ _ => True) (¬ PrivilegedPath st.pathTranslated)
      (processPathTranslated env req c st).2 :=
    Steady.processPathTranslated hc.filesIn
      ⟨trivial, fun _ => hfile, fun _ h hmem hp => hcalled ⟨h, hmem, hp⟩⟩
      fun hno => ⟨hc.avoids hno, fun _ name hname base =>
        hc.avoids (not_privilegedPath_index hc hname base)⟩
  refine ⟨hsettled.session, Option.eq_none_iff_forall_not_mem.mpr fun f hf => ?_, ?_⟩
  · exact List.not_mem_nil (hsettled.errorFile trivial f hf)
  · rintro ⟨handler, hmem, hp⟩
    by_contra hno
    exact hquiet.handlers hno handler hmem hp

/-- `get_path_info` goes on with a file, and for a handler also without one. -/
def OpenResult.Usable : OpenResult → Prop
  | .noent | .opened _ => True
  | .failed | .unstatable => False

instance : DecidablePred OpenResult.Usable
  | .noent | .opened _ => inferInstanceAs (Decidable True)
  | .failed | .unstatable => inferInstanceAs (Decidable False)

theorem trailingSlashes_eq_zero {s : Text} (h : PrivilegedPath s) : trailingSlashes s = 0 := by
  have hlast : s.getLast? ≠ some '/' := by
    intro hslash
    obtain ⟨e, he, hends⟩ := h
    have hlower := hends.getLast? (ne_nil_of_privileged he)
    rw [hslash] at hlower
    have hexts : ∀ e ∈ privilegedExts, e.getLast?.map Char.toLower ≠ some '/' := by decide +kernel
    exact hexts e he hlower.symm
  rw [← List.head?_reverse] at hlast
  simp only [trailingSlashes]
  cases hs : s.reverse with
  | nil => rfl
  | cons ch rest =>
    rw [hs] at hlast
    have hch : ch ≠ '/' := fun heq => hlast (congrArg some heq)
    simp [hch]

theorem getPathInfo_privileged (env : RequestEnv) (st : RequestState)
    (hpath : PrivilegedPath st.pathTranslated) (hcls : st.cls ≠ .file)
    (hpos : 0 < st.locationLength) (hle : st.locationLength ≤ st.pathTranslated.length) :
    (getPathInfo env st).1 = true ↔ (env.openFile st.pathTranslated).Usable := by
  have hcp : max (st.pathTranslated.length - trailingSlashes st.pathTranslated)
      (st.locationLength - 1) = st.pathTranslated.length := by
    rw [trailingSlashes_eq_zero hpath]
    omega
  simp only [getPathInfo, hcp, if_neg (Nat.ne_of_gt hpos), if_neg (Nat.not_lt.mpr hle),
    List.take_length]
  cases env.openFile st.pathTranslated <;> simp [OpenResult.Usable, hcls]

/-- For a path that ends in a privileged extension the handler is called if the path can be
used. -/
theorem processPathTranslated_called (hc : SiteControl c) (hcalled : ¬ Called st)
    (hstatus : st.status = 0) (hpath : PrivilegedPath st.pathTranslated)
    (hslash : st.pathTranslated.head? = some '/') (hpos : 0 < st.locationLength)
    (hle : st.locationLength ≤ st.pathTranslated.length) :
    Called (processPathTranslated env req c st).2 ↔
      (env.openFile st.pathTranslated).Usable := by
  obtain ⟨⟨type, cls⟩, hmime⟩ := hc.mimes.exists_type req.headers hpath
  have htype : PrivilegedType (type, cls) := (hc.mimes.privilegedType_iff hmime).mpr hpath
  have hcls : cls ≠ .file := by
    rintro rfl
    exact htype
  have hinfo := getPathInfo_privileged env { st with contentType := type, cls := cls } hpath hcls
    hpos hle
  obtain ⟨p, args, kind, hkeeps, -⟩ :=
    getPathInfo_keeps env { st with contentType := type, cls := cls }
  simp only [processPathTranslated, hmime]
  split
  · next hnil => simp [hnil] at hslash
  · next ch rest hcons =>
    obtain rfl : ch = '/' := by simpa [hcons] using hslash
    rw [if_neg (fun hne => hne rfl)]
    split
    · next st' hfalse =>
      obtain rfl : st' = _ := hfalse ▸ hkeeps
      rw [hfalse] at hinfo
      exact iff_of_false hcalled fun husable => Bool.false_ne_true (hinfo.mpr husable)
    · next st' htrue =>
      obtain rfl : st' = _ := htrue ▸ hkeeps
      rw [htrue] at hinfo
      rw [if_neg (fun hdir => hcls hdir.1), dispatch_called hc]
      exact iff_of_true (.inl ⟨htype, fun _ => hstatus⟩) (hinfo.mp rfl)

end Wbr1310.Httpd
