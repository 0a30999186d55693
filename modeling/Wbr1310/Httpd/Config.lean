import Wbr1310.Lib.Text

/-!
# The configuration of the web server

`config_control` and `config_mime` of `config.c`, for the keywords whose values the
handling of a path reads, and the configuration that `httpd.php` generates.
-/

namespace Wbr1310.Httpd

open Lib List Option

/-- `CLASS_FILE`, `CLASS_SPECIAL` and `CLASS_EXTERNAL`. -/
inductive MimeClass where
  | file
  | special
  | external
  deriving DecidableEq, Repr

/-- `struct mime`; the extension `*` is stored as a null pointer. -/
structure Mime where
  cls : MimeClass
  name : Text
  ext : Option Text
  deriving DecidableEq, Repr

/-- `struct control`, with one location. -/
structure Control where
  locations : Option Text
  aliasPath : Option Text
  exactMatch : Bool
  indexNames : List Text
  mimes : List Mime
  pathArgsOk : Bool
  realm : Option Text
  userfile : Option Text
  error401File : Option Text
  error404File : Option Text
  sessionControl : Bool
  sessionFilter : List Text
  allowDotfiles : Bool
  pathInfoOk : Bool
  autoIndexCommand : Option Text
  deriving DecidableEq, Repr

/-- A keyword of a control block, with its value. -/
inductive Directive where
  | location (t : Text)
  | aliasPath (t : Text)
  | exactMatch (b : Bool)
  | indexNames (names : List Text)
  | mimes (cls : MimeClass) (types : List (Text × List Text))
  | pathArgs (b : Bool)
  | realm (t : Text)
  | userFile (t : Text)
  | error401File (t : Text)
  | error404File (t : Text)
  | sessionControl (b : Bool)
  | sessionFilter (names : List Text)
  | allowDotfiles (b : Bool)
  | pathInfo (b : Bool)
  | autoIndexCommand (t : Text)

def Control.fresh : Control where
  locations := none
  aliasPath := none
  exactMatch := false
  indexNames := []
  mimes := []
  pathArgsOk := false
  realm := none
  userfile := none
  error401File := none
  error404File := none
  sessionControl := false
  sessionFilter := []
  allowDotfiles := false
  pathInfoOk := true
  autoIndexCommand := none

def Control.child (b : Control) : Control :=
  { b with locations := none, aliasPath := none, exactMatch := false }

def chopslash (t : Text) : Text := (t.reverse.dropWhile (· = '/')).reverse

/-- `config_list`: each name is put in front. -/
def configList (names list : List Text) : List Text := names.reverse ++ list

def configExts (cls : MimeClass) (name : Text) (exts : List Text) (mimes : List Mime) : List Mime :=
  exts.foldl (fun ms e => ⟨cls, name, if e = ['*'] then none else some e⟩ :: ms) mimes

def configMime (cls : MimeClass) (types : List (Text × List Text)) (mimes : List Mime) :
    List Mime :=
  types.foldl (fun ms type => configExts cls type.1 type.2 ms) mimes

def Control.set (a : Control) : Directive → Control
  | .location t => { a with locations := some (chopslash t) }
  | .aliasPath t => { a with aliasPath := some (chopslash t) }
  | .exactMatch b => { a with exactMatch := b }
  | .indexNames names => { a with indexNames := configList names a.indexNames }
  | .mimes cls types => { a with mimes := configMime cls types a.mimes }
  | .pathArgs b => { a with pathArgsOk := b }
  | .realm t => { a with realm := some t }
  | .userFile t => { a with userfile := some t }
  | .error401File t => { a with error401File := some t }
  | .error404File t => { a with error404File := some t }
  | .sessionControl b => { a with sessionControl := b }
  | .sessionFilter names => { a with sessionFilter := configList names a.sessionFilter }
  | .allowDotfiles b => { a with allowDotfiles := b }
  | .pathInfo b => { a with pathInfoOk := b }
  | .autoIndexCommand t => { a with autoIndexCommand := some t }

/-- `config_control`: the parent is the first control without a location, and the new one is
put in front. -/
def configControl (controls : List Control) (directives : List Directive) : List Control :=
  let a := match controls.find? (·.locations.isNone) with
    | some b => b.child
    | none => .fresh
  directives.foldl Control.set a :: controls

/-- `struct virtual` with the controls of its server. -/
structure Virtual where
  host : Option Text
  anyhost : Bool
  controls : List Control

def globalControl : List Directive :=
  [.mimes .file
      [("text/html".toList, ["html".toList, "htm".toList]),
        ("text/plain".toList, ["txt".toList]),
        ("image/gif".toList, ["gif".toList]),
        ("image/jpeg".toList, ["jpg".toList]),
        ("text/css".toList, ["css".toList]),
        ("application/ocstream".toList, ["*".toList])],
    .mimes .special
      [("Dump".toList, ["/dump".toList]),
        ("CGI".toList, ["cgi".toList]),
        ("Imagemap".toList, ["map".toList]),
        ("Redirect".toList, ["url".toList]),
        ("Internal".toList, ["_int".toList])],
    .mimes .external
      [("/sbin/atp".toList, ["php".toList]),
        ("/sbin/xgi".toList, ["xgi".toList, "bin".toList])],
    .indexNames ["index.html".toList]]

/-- The control for `/`; the realm is left out when the authentication type is `s`. -/
def rootControl (authtype hostname : Text) : List Directive :=
  (if authtype ≠ "s".toList then
    [.realm hostname, .userFile "/var/etc/httpasswd".toList,
      .error401File "/www/sys/not_auth.php".toList]
  else []) ++
  [.sessionControl true,
    .sessionFilter ["php".toList, "xgi".toList, "_int".toList],
    .aliasPath "/".toList,
    .location "/www".toList]

/-- The control for `/HNAP1`. -/
def hnapControl : List Directive :=
  [.aliasPath "/HNAP1".toList,
    .location "/www/HNAP1".toList,
    .mimes .external [("/usr/sbin/hnap".toList, ["hnap".toList])],
    .indexNames ["index.hnap".toList]]

/-- The virtual hosts of the generated configuration: one, for any host. -/
def httpdPhp (authtype hostname : Text) : List Virtual :=
  [{ host := none
     anyhost := true
     controls := configControl (configControl (configControl [] globalControl)
       (rootControl authtype hostname)) hnapControl }]

/-- The variables of `get_mime`. -/
structure MimeSearch where
  saved : Option (Text × MimeClass)
  lm : ℕ

/-- An extension `h:name` matches a header. -/
def headerExt (e : Text) : Prop := Text.EqIgnoreCase (e.take 2) ['h', ':']

instance (e : Text) : Decidable (headerExt e) := inferInstanceAs (Decidable (Text.EqIgnoreCase _ _))

/-- The loop of `get_mime`. -/
def getMimeFrom (headers : List Text) (s : Text) : List Mime → MimeSearch → MimeSearch
  | [], found => found
  | m :: mimes, found => match m.ext with
    | some e =>
      if headerExt e then
        let found := if ∃ h ∈ headers, Text.EqIgnoreCase h (e.drop 2)
          then { found with saved := some (m.name, m.cls) } else found
        -- the search ends once a type is saved, also by an extension before
        if found.saved.isSome then found else getMimeFrom headers s mimes found
      else if found.lm < e.length ∧ e.length ≤ s.length ∧
          Text.EqIgnoreCase (s.drop (s.length - e.length)) e then
        getMimeFrom headers s mimes ⟨some (m.name, m.cls), e.length⟩
      else getMimeFrom headers s mimes found
    | none => getMimeFrom headers s mimes
        { found with saved := found.saved.or (some (m.name, m.cls)) }

/-- `get_mime`: the type and the class of a path. -/
def getMime (c : Control) (headers : List Text) (s : Text) : Option (Text × MimeClass) :=
  (getMimeFrom headers s c.mimes ⟨none, 0⟩).saved

/-- The type of a path by a list of types: the one with the longest extension in which the
path ends, or, if it ends in none, one for all paths. -/
inductive TypeOf (mimes : List Mime) (s : Text) : Text × MimeClass → Prop where
  | ending {m : Mime} {e : Text} (mem : m ∈ mimes) (ext : m.ext = some e) (ends : s.EndsIn e)
      (longest : ∀ m' ∈ mimes, ∀ e', m'.ext = some e' → s.EndsIn e' → e'.length ≤ e.length) :
      TypeOf mimes s (m.name, m.cls)
  | all {m : Mime} (mem : m ∈ mimes) (ext : m.ext = none)
      (noEnding : ∀ m' ∈ mimes, ∀ e', m'.ext = some e' → s.EndsIn e' → e' = []) :
      TypeOf mimes s (m.name, m.cls)

/-- What the loop of `get_mime` has found among the types `seen`. -/
structure MimeSearch.Found (s : Text) (seen : List Mime) (found : MimeSearch) : Prop where
  longest : ∀ m ∈ seen, ∀ e, m.ext = some e → s.EndsIn e → e.length ≤ found.lm
  isSome : 0 < found.lm → found.saved.isSome
  saved : ∀ type, found.saved = some type → ∃ m ∈ seen, (m.name, m.cls) = type ∧
    if found.lm = 0 then m.ext = none
    else ∃ e, m.ext = some e ∧ s.EndsIn e ∧ e.length = found.lm

namespace MimeSearch.Found

variable {s : Text} {seen : List Mime} {found : MimeSearch} {m : Mime}

theorem skip (h : Found s seen found)
    (hm : ∀ e, m.ext = some e → s.EndsIn e → e.length ≤ found.lm) :
    Found s (m :: seen) found where
  longest := List.forall_mem_cons.mpr ⟨hm, h.longest⟩
  isSome := h.isSome
  saved type ht := by
    obtain ⟨m', hm', hrest⟩ := h.saved type ht
    exact ⟨m', mem_cons_of_mem m hm', hrest⟩

theorem longer {e : Text} (h : Found s seen found) (hext : m.ext = some e) (hends : s.EndsIn e)
    (hlt : found.lm < e.length) : Found s (m :: seen) ⟨some (m.name, m.cls), e.length⟩ where
  longest := by
    refine forall_mem_cons.mpr ⟨fun e' he' _ => ?_, fun m' hm' e' he' hends' => ?_⟩
    · obtain rfl := some.inj (hext.symm.trans he')
      exact Nat.le_refl _
    · exact Nat.le_trans (h.longest m' hm' e' he' hends') hlt.le
  isSome _ := rfl
  saved type ht := by
    obtain rfl := some.inj ht
    refine ⟨m, mem_cons_self, rfl, ?_⟩
    rw [if_neg (Nat.ne_of_gt (Nat.zero_lt_of_lt hlt))]
    exact ⟨e, hext, hends, rfl⟩

theorem all (h : Found s seen found) (hext : m.ext = none) :
    Found s (m :: seen) { found with saved := found.saved.or (some (m.name, m.cls)) } where
  longest := List.forall_mem_cons.mpr ⟨fun e he => (nomatch hext.symm.trans he), h.longest⟩
  isSome _ := by simp
  saved type ht := by
    cases hsaved : found.saved with
    | some old =>
      rw [hsaved, some_or] at ht
      obtain ⟨m', hm', hrest⟩ := h.saved type (hsaved.trans ht)
      exact ⟨m', mem_cons_of_mem m hm', hrest⟩
    | none =>
      rw [hsaved, none_or] at ht
      have hlm : found.lm = 0 := by
        refine Nat.eq_zero_of_not_pos fun hlm => ?_
        simpa [hsaved] using h.isSome hlm
      exact ⟨m, mem_cons_self, some.inj ht, by simpa only [if_pos hlm] using hext⟩

end MimeSearch.Found

theorem getMimeFrom_found {headers : List Text} {s : Text} {mimes seen : List Mime}
    {found : MimeSearch} (hexts : ∀ m ∈ mimes, ∀ e, m.ext = some e → ¬ headerExt e)
    (h : found.Found s seen) :
    (getMimeFrom headers s mimes found).Found s (mimes.reverse ++ seen) := by
  induction mimes generalizing seen found with
  | nil => exact h
  | cons m mimes ih =>
    obtain ⟨hm, hexts⟩ := forall_mem_cons.mp hexts
    rw [reverse_cons, append_assoc, singleton_append]
    simp only [getMimeFrom]
    split
    · next e he =>
      rw [if_neg (hm e he)]
      split
      · next hmatch =>
        obtain ⟨hlt, _, heq⟩ := hmatch
        exact ih hexts (h.longer he (Text.endsIn_iff_drop.mpr heq) hlt)
      · next hmatch =>
        refine ih hexts (h.skip fun e' he' hends => ?_)
        obtain rfl := some.inj (he.symm.trans he')
        refine Nat.le_of_not_lt fun hlt => hmatch ⟨hlt, hends.length_le, ?_⟩
        exact Text.endsIn_iff_drop.mp hends
    · next he => exact ih hexts (h.all he)

section GetMime

variable {c : Control} (hexts : ∀ m ∈ c.mimes, ∀ e, m.ext = some e → ¬ headerExt e)
  {headers : List Text} {s : Text}
include hexts

theorem getMime_found (headers : List Text) (s : Text) :
    (getMimeFrom headers s c.mimes ⟨none, 0⟩).Found s c.mimes.reverse := by
  have hstart : MimeSearch.Found s [] ⟨none, 0⟩ :=
    ⟨fun _ hm => (nomatch hm), fun hlm => (nomatch hlm), fun _ ht => nomatch ht⟩
  simpa only [append_nil] using getMimeFrom_found hexts hstart

theorem getMime_typeOf {type : Text × MimeClass} (h : getMime c headers s = some type) :
    TypeOf c.mimes s type := by
  have hfound := getMime_found hexts headers s
  obtain ⟨m, hm, rfl, hext⟩ := hfound.saved type h
  have hlongest := fun m' hm' => hfound.longest m' (mem_reverse.mpr hm')
  split at hext
  · next hlm =>
    refine .all (mem_reverse.mp hm) hext fun m' hm' e' he' hends => ?_
    have := hlongest m' hm' e' he' hends
    exact eq_nil_of_length_eq_zero (by omega)
  · obtain ⟨e, he, hends, hlen⟩ := hext
    refine .ending (mem_reverse.mp hm) he hends fun m' hm' e' he' hends' => ?_
    have := hlongest m' hm' e' he' hends'
    omega

theorem getMime_isSome {m : Mime} {e : Text} (hm : m ∈ c.mimes) (he : m.ext = some e)
    (hne : e ≠ []) (hends : s.EndsIn e) : (getMime c headers s).isSome := by
  have hfound := getMime_found hexts headers s
  apply hfound.isSome
  have := hfound.longest m (mem_reverse.mpr hm) e he hends
  have := length_pos_iff.mpr hne
  omega

theorem getMime_of_endsIn {m : Mime} {e : Text} (hm : m ∈ c.mimes) (he : m.ext = some e)
    (hne : e ≠ []) (hends : s.EndsIn e)
    (honly : ∀ m' ∈ c.mimes, ∀ e', m'.ext = some e' → e'.EndsIn e → m' = m) :
    getMime c headers s = some (m.name, m.cls) := by
  obtain ⟨type, htype⟩ := isSome_iff_exists.mp
    (getMime_isSome (s := s) hexts hm he hne hends)
  rw [htype]
  cases getMime_typeOf hexts htype with
  | ending mem ext ends longest =>
    rw [honly _ mem _ ext (hends.of_length_le ends (longest m hm e he hends))]
  | all mem ext noEnding => exact absurd (noEnding m hm e he hends) hne

end GetMime

end Wbr1310.Httpd
