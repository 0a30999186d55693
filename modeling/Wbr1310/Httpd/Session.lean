import Wbr1310.Lib.FileTree
import Wbr1310.Lib.Machine
import Wbr1310.Lib.Text

/-!
# Web sessions

`web-session.c` keeps the sessions in files below `/var/proc/web/`. A slot is a directory
with the time of its last request, the address of its peer and what the login pages store
about the user. Operations on files succeed, and the idle time and the number of slots stay as
they are.
-/

namespace Wbr1310.Httpd

open Lib

/-- The names below `/var/proc/web/`; a slot is the directory `session:` with its number. -/
inductive SessionName where
  | session (i : ℕ)
  | user
  | time
  | ip
  | acAuth
  | group
  | other (name : Text)
  deriving DecidableEq, Repr

abbrev SessionStore := Dir SessionName Text

/-- An address, byte by byte. -/
structure InAddr where
  a : UInt8
  b : UInt8
  c : UInt8
  d : UInt8
  deriving DecidableEq, Repr

def inetNtoa (p : InAddr) : Text :=
  Text.decimal p.a.toNat ++ '.' :: Text.decimal p.b.toNat ++ '.' :: Text.decimal p.c.toNat ++
    '.' :: Text.decimal p.d.toNat

/-- The size of `Val`. -/
def valSize : ℕ := 32

section

variable (sessionMax : ℕ) (idleTime : ℤ) (curTime : ℕ) (addr : Text) (s : SessionStore)

/-- `get_val`: what was read, or nothing if the file is not there. -/
def getVal (path : List SessionName) (name : SessionName) : Option Text :=
  (s.read path name).map (·.take valSize)

/-- `set_val`: the file is not truncated, so that the end of a longer text stays. -/
def setVal (val : Text) (s : SessionStore) (path : List SessionName) (name : SessionName) :
    SessionStore :=
  s.write path name (val ++ ((s.read path name).getD []).drop val.length)

/-- `del_node` without a name, which calls `deltree` for the contents of the slot. -/
def delNode (sid : ℕ) (s : SessionStore) : SessionStore := s.clearAt [.session sid]

def lastTime (i : ℕ) : ℤ := Text.atoi ((getVal s [.session i] .time).getD [])

def Live (curTime idleTime : ℤ) (s : SessionStore) (i : ℕ) : Prop :=
  lastTime s i ≠ 0 ∧ curTime - lastTime s i ≤ idleTime

instance (curTime idleTime : ℤ) (s : SessionStore) (i : ℕ) :
    Decidable (Live curTime idleTime s i) := inferInstanceAs (Decidable (_ ∧ _))

def Records (i : ℕ) : Prop :=
  addr = (getVal s [.session i] .ip).getD []

instance (addr : Text) (s : SessionStore) (i : ℕ) : Decidable (Records addr s i) :=
  inferInstanceAs (Decidable (_ = _))

/-- `n` rounds, from slot `i` on, of the loop over the slots: the slot that is returned, or
`AvlSession`. -/
def sessionLoop (addr : Text) (curTime idleTime : ℤ) (s : SessionStore) : ℕ → ℕ → ℤ → ℕ ⊕ ℤ
  | 0, _, avlSession => .inr avlSession
  | n + 1, i, avlSession =>
    if Live curTime idleTime s i then
      if Records addr s i then .inl i
      else sessionLoop addr curTime idleTime s n (i + 1) avlSession
    else sessionLoop addr curTime idleTime s n (i + 1) (if avlSession < 1 then i else avlSession)

def refresh (i : ℕ) : SessionStore :=
  setVal (Text.decimal curTime) s [.session i] .time

/-- The slot is cleared and gets the time and the address. -/
def give (curTime : ℕ) (s : SessionStore) (i : ℕ) : SessionStore :=
  setVal addr (setVal (Text.decimal curTime) (delNode i s) [.session i] .time) [.session i] .ip

def getSessionId : ℤ × SessionStore :=
  match sessionLoop addr curTime idleTime s sessionMax 1 (-1) with
  | .inl i => (i, refresh curTime s i)
  | .inr avlSession =>
    if 0 < avlSession then (avlSession, give addr curTime s avlSession.toNat) else (avlSession, s)

def userVal (sessionid : ℤ) (name : SessionName) : ℤ :=
  if 0 < sessionid ∧ sessionid ≤ sessionMax then
    match getVal s [.session sessionid.toNat, .user] name with
    | some val => if val ≠ [] then Text.atoi val else -1
    | none => -1
  else -1

def getSessiongrp (sessionid : ℤ) : ℤ :=
  userVal sessionMax s sessionid .group

def checkSession (sessionid : ℤ) : ℤ :=
  userVal sessionMax s sessionid .acAuth

end

theorem setVal_read (val : Text) (s : SessionStore) (path : List SessionName) (name : SessionName)
    (path' : List SessionName) (name' : SessionName) :
    (setVal val s path name).read path' name' =
      if path' = path ∧ name' = name then
        some (val ++ ((s.read path name).getD []).drop val.length)
      else s.read path' name' :=
  Dir.read_write s path name _ path' name'

variable {s s' : SessionStore} {i : ℕ}

variable (addr : Text) (curTime : ℕ)

theorem refresh_time {old : Text} (h : s.read [.session i] .time = some old) :
    (refresh curTime s i).read [.session i] .time =
      some (Text.decimal curTime ++ old.drop (Text.decimal curTime).length) := by
  rw [refresh, setVal_read, if_pos ⟨rfl, rfl⟩, h, Option.getD_some]

theorem refresh_of_ne (s : SessionStore) (i : ℕ) {path : List SessionName} {name : SessionName}
    (h : path ≠ [.session i] ∨ name ≠ .time) :
    (refresh curTime s i).read path name = s.read path name := by
  rw [refresh, setVal_read, if_neg (not_and_or.mpr h)]

theorem delNode_read (i : ℕ) (s : SessionStore) (path : List SessionName) (name : SessionName) :
    (delNode i s).read (.session i :: path) name = none := by
  have hpre : [SessionName.session i] <+: .session i :: path := List.prefix_append [_] path
  rw [delNode, Dir.read_clearAt, if_pos hpre]

theorem delNode_of_ne {j : ℕ} (h : j ≠ i) (s : SessionStore) (path : List SessionName)
    (name : SessionName) :
    (delNode i s).read (.session j :: path) name = s.read (.session j :: path) name := by
  rw [delNode, Dir.read_clearAt, if_neg]
  rw [List.cons_prefix_cons]
  exact fun hpre => h (SessionName.session.inj hpre.1).symm

theorem give_time (s : SessionStore) (i : ℕ) :
    (give addr curTime s i).read [.session i] .time = some (Text.decimal curTime) := by
  simp [give, setVal_read, delNode_read]

theorem give_ip (s : SessionStore) (i : ℕ) :
    (give addr curTime s i).read [.session i] .ip = some addr := by
  simp [give, setVal_read, delNode_read]

theorem give_user (s : SessionStore) (i : ℕ) (name : SessionName) :
    (give addr curTime s i).read [.session i, .user] name = none := by
  simp [give, setVal_read, delNode_read]

theorem give_of_ne (s : SessionStore) {j : ℕ} (h : j ≠ i) (path : List SessionName)
    (name : SessionName) :
    (give addr curTime s i).read (.session j :: path) name = s.read (.session j :: path) name := by
  simp [give, setVal_read, delNode_of_ne h, h]

theorem sessionLoop_spec (curTime idleTime : ℤ) (s : SessionStore) (n i : ℕ) (avlSession : ℤ)
    (hi : 1 ≤ i) :
    match sessionLoop addr curTime idleTime s n i avlSession with
    | .inl k => i ≤ k ∧ k < i + n ∧ Live curTime idleTime s k ∧ Records addr s k
    | .inr a =>
      (∀ k, i ≤ k → k < i + n → Live curTime idleTime s k → ¬ Records addr s k) ∧
        ((a = avlSession ∧ (avlSession < 1 →
            ∀ k, i ≤ k → k < i + n → Live curTime idleTime s k)) ∨
          ∃ k : ℕ, a = k ∧ i ≤ k ∧ k < i + n ∧ ¬ Live curTime idleTime s k) := by
  induction n generalizing i avlSession with
  | zero =>
    refine ⟨fun k h1 h2 => by omega, .inl ⟨rfl, fun _ k h1 h2 => by omega⟩⟩
  | succ n ih =>
    rw [sessionLoop]
    split_ifs with hlive hrecords hfirst
    · exact ⟨le_rfl, by omega, hlive, hrecords⟩
    · -- the slot belongs to another peer
      have hrest := ih (i + 1) avlSession (by omega)
      split at hrest
      · grind
      · grind
    · have hrest := ih (i + 1) i (by omega)
      split at hrest
      · grind
      · grind
    · have hrest := ih (i + 1) avlSession (by omega)
      split at hrest
      · grind
      · grind

/-- The three outcomes: the slot of the peer, a slot that is free, or none. -/
theorem getSessionId_cases (sessionMax : ℕ) (idleTime : ℤ) (curTime : ℕ) (addr : Text)
    (s : SessionStore) :
    (∃ i, 1 ≤ i ∧ i ≤ sessionMax ∧ Live curTime idleTime s i ∧ Records addr s i ∧
        getSessionId sessionMax idleTime curTime addr s = (↑i, refresh curTime s i)) ∨
      (∀ i, 1 ≤ i → i ≤ sessionMax → Live curTime idleTime s i → ¬ Records addr s i) ∧
        ((∃ i, 1 ≤ i ∧ i ≤ sessionMax ∧ ¬ Live curTime idleTime s i ∧
            getSessionId sessionMax idleTime curTime addr s = (↑i, give addr curTime s i)) ∨
          (∀ i, 1 ≤ i → i ≤ sessionMax → Live curTime idleTime s i) ∧
            getSessionId sessionMax idleTime curTime addr s = (-1, s)) := by
  have hloop := sessionLoop_spec addr curTime idleTime s sessionMax 1 (-1) le_rfl
  cases hfound : sessionLoop addr curTime idleTime s sessionMax 1 (-1) with
  | inl i =>
    rw [hfound] at hloop
    obtain ⟨hi, hmax, hlive, hrecords⟩ := hloop
    refine .inl ⟨i, hi, by omega, hlive, hrecords, ?_⟩
    rw [getSessionId, hfound]
  | inr a =>
    rw [hfound] at hloop
    obtain ⟨hother, ⟨rfl, hall⟩ | ⟨i, rfl, hi, hmax, hfree⟩⟩ := hloop
    · refine .inr ⟨fun i hi hmax => hother i hi (by omega), .inr ⟨?_, ?_⟩⟩
      · exact fun i hi hmax => hall (by decide) i hi (by omega)
      · rw [getSessionId, hfound]
        rfl
    · refine .inr ⟨fun i hi hmax => hother i hi (by omega), .inl ⟨i, hi, by omega, hfree, ?_⟩⟩
      rw [getSessionId, hfound]
      simp only [Int.toNat_natCast]
      exact if_pos (by omega)

/-- `(int)info.uptime`, once the system is up. -/
structure Uptime where
  val : ℕ
  pos : 1 ≤ val
  lt : val < 2 ^ 31

def Uptime.max (t u : Uptime) : Uptime := if t.val ≤ u.val then u else t

/-- The store and the clock it is stamped with. -/
structure Sessions where
  store : SessionStore
  uptime : Uptime

/-- What happens to the sessions. The login pages write and unlink files of the user of a session,
and the logout page unlinks what makes the slot live. -/
inductive SessionEvent where
  | tick (t : Uptime)
  | request (peer : InAddr)
  | userWrite (sid : ℕ) (name : SessionName) (text : Text)
  | userUnlink (sid : ℕ) (name : SessionName)
  | logout (sid : ℕ)

/-- `__logout.php`. -/
def logout (sid : ℕ) (s : SessionStore) : SessionStore :=
  ((s.remove [.session sid, .user] .acAuth).remove [.session sid] .ip).remove [.session sid] .time

def Sessions.step (sessionMax : ℕ) (idleTime : ℤ) (s : Sessions) : SessionEvent → Sessions
  | .tick t => { s with uptime := s.uptime.max t }
  | .request peer =>
    { s with store := (getSessionId sessionMax idleTime s.uptime.val (inetNtoa peer) s.store).2 }
  | .userWrite sid name text => { s with store := s.store.write [.session sid, .user] name text }
  | .userUnlink sid name => { s with store := s.store.remove [.session sid, .user] name }
  | .logout sid => { s with store := logout sid s.store }

def Sessions.start (uptime : Uptime) : Sessions := ⟨.empty, uptime⟩

/-- A slot is not used, or it has a time and an address that were written whole. -/
def SlotWritten (sessionMax uptime : ℕ) (s : SessionStore) (i : ℕ) : Prop :=
  s.read [.session i] .time = none ∨
    ∃ t peer, 1 ≤ i ∧ i ≤ sessionMax ∧ 1 ≤ t ∧ t ≤ uptime ∧
      s.read [.session i] .time = some (Text.decimal t) ∧
      s.read [.session i] .ip = some (inetNtoa peer)

def Sessions.Distinct (idleTime : ℤ) (s : Sessions) : Prop :=
  ∀ i j peer, Live s.uptime.val idleTime s.store i → Live s.uptime.val idleTime s.store j →
    Records (inetNtoa peer) s.store i → Records (inetNtoa peer) s.store j → i = j

/-- The invariant: slots are as the server writes them, no two for one address. -/
structure Sessions.Sound (sessionMax : ℕ) (idleTime : ℤ) (s : Sessions) : Prop where
  written : ∀ i, SlotWritten sessionMax s.uptime.val s.store i
  distinct : s.Distinct idleTime

theorem length_inetNtoa (peer : InAddr) : (inetNtoa peer).length ≤ 15 := by
  have hoctet : ∀ x : UInt8, (Text.decimal x.toNat).length ≤ 3 := by
    intro x
    have hx := x.toNat_lt
    exact (Text.length_decimal_le_iff (by decide)).mpr (by omega)
  have ha := hoctet peer.a
  have hb := hoctet peer.b
  have hc := hoctet peer.c
  have hd := hoctet peer.d
  simp only [inetNtoa, List.length_append, List.length_cons]
  omega

theorem lastTime_of_none (h : s.read [.session i] .time = none) :
    lastTime s i = 0 := by
  rw [lastTime, getVal, h]
  rfl

theorem records_of_some {peer : InAddr} (h : s.read [.session i] .ip = some (inetNtoa peer))
    (addr : Text) :
    Records addr s i ↔ addr = inetNtoa peer := by
  have hlen : (inetNtoa peer).length ≤ valSize := (length_inetNtoa peer).trans (by decide)
  rw [Records, getVal, h, Option.map_some, Option.getD_some, List.take_of_length_le hlen]

theorem live_congr (h : s'.read [.session i] .time = s.read [.session i] .time)
    (curTime idleTime : ℤ) :
    Live curTime idleTime s' i ↔ Live curTime idleTime s i := by
  rw [Live, Live, lastTime, lastTime, getVal, getVal, h]

theorem records_congr (h : s'.read [.session i] .ip = s.read [.session i] .ip) (addr : Text) :
    Records addr s' i ↔ Records addr s i := by
  rw [Records, Records, getVal, getVal, h]

theorem not_live_of_none (h : s.read [.session i] .time = none) (curTime idleTime : ℤ) :
    ¬ Live curTime idleTime s i :=
  fun hlive => hlive.1 (lastTime_of_none h)

theorem SlotWritten.of_live {sessionMax uptime : ℕ} (h : SlotWritten sessionMax uptime s i)
    {curTime idleTime : ℤ} (hlive : Live curTime idleTime s i) :
    ∃ t peer, 1 ≤ i ∧ i ≤ sessionMax ∧ 1 ≤ t ∧ t ≤ uptime ∧
      s.read [.session i] .time = some (Text.decimal t) ∧
      s.read [.session i] .ip = some (inetNtoa peer) :=
  h.resolve_left fun hnone => not_live_of_none hnone curTime idleTime hlive

theorem SlotWritten.congr {sessionMax uptime : ℕ} (h : SlotWritten sessionMax uptime s i)
    (htime : s'.read [.session i] .time = s.read [.session i] .time)
    (hip : s'.read [.session i] .ip = s.read [.session i] .ip) :
    SlotWritten sessionMax uptime s' i := by
  rw [SlotWritten, htime, hip]
  exact h

variable {sessionMax : ℕ} {idleTime : ℤ}

/-- An event that empties slots or leaves them as they are. -/
theorem Sessions.Sound.of_slots {s s' : Sessions} (h : s.Sound sessionMax idleTime)
    (huptime : s'.uptime = s.uptime)
    (hslots : ∀ i, s'.store.read [.session i] .time = none ∨
      s'.store.read [.session i] .time = s.store.read [.session i] .time ∧
        s'.store.read [.session i] .ip = s.store.read [.session i] .ip) :
    s'.Sound sessionMax idleTime := by
  have hsame : ∀ i curTime, Live curTime idleTime s'.store i →
      s'.store.read [.session i] .time = s.store.read [.session i] .time ∧
        s'.store.read [.session i] .ip = s.store.read [.session i] .ip :=
    fun i curTime hlive => (hslots i).resolve_left fun hnone => not_live_of_none hnone _ _ hlive
  constructor
  · intro i
    rw [huptime]
    obtain hnone | ⟨htime, hip⟩ := hslots i
    · exact .inl hnone
    · exact (h.written i).congr htime hip
  · intro i j peer hi hj hri hrj
    rw [huptime] at hi hj
    obtain ⟨htimei, hipi⟩ := hsame i _ hi
    obtain ⟨htimej, hipj⟩ := hsame j _ hj
    exact h.distinct i j peer ((live_congr htimei _ _).mp hi) ((live_congr htimej _ _).mp hj)
      ((records_congr hipi _).mp hri) ((records_congr hipj _).mp hrj)

theorem Uptime.le_max (t u : Uptime) : t.val ≤ (t.max u).val := by
  rw [Uptime.max]
  split
  · assumption
  · exact le_rfl

theorem Sessions.Sound.tick {s : Sessions} (h : s.Sound sessionMax idleTime) (t : Uptime) :
    Sessions.Sound sessionMax idleTime { s with uptime := s.uptime.max t } := by
  have hle := s.uptime.le_max t
  have hlive : ∀ i, Live (s.uptime.max t).val idleTime s.store i →
      Live s.uptime.val idleTime s.store i :=
    fun i hi => ⟨hi.1, by have := hi.2; omega⟩
  constructor
  · intro i
    obtain hnone | ⟨t', peer, hi, hmax, hpos, hle', htime, hip⟩ := h.written i
    · exact .inl hnone
    · exact .inr ⟨t', peer, hi, hmax, hpos, hle'.trans hle, htime, hip⟩
  · exact fun i j peer hi hj => h.distinct i j peer (hlive i hi) (hlive j hj)

theorem Sessions.Sound.refresh {s : Sessions} (h : s.Sound sessionMax idleTime)
    (hlive : Live s.uptime.val idleTime s.store i) :
    Sessions.Sound sessionMax idleTime
      { s with store := Httpd.refresh s.uptime.val s.store i } := by
  obtain ⟨t, peer, hi, hmax, hpos, hle, htime, hip⟩ := (h.written i).of_live hlive
  have hnew : (Httpd.refresh s.uptime.val s.store i).read [.session i] .time =
      some (Text.decimal s.uptime.val) := by
    -- the old time has not more digits, so that nothing of it stays
    rw [refresh_time _ htime, List.drop_of_length_le (Text.length_decimal_mono hle),
      List.append_nil]
  have hipsame : ∀ k, (Httpd.refresh s.uptime.val s.store i).read [.session k] .ip =
      s.store.read [.session k] .ip :=
    fun k => refresh_of_ne _ _ _ (.inr (by decide))
  have htimesame : ∀ k, k ≠ i → (Httpd.refresh s.uptime.val s.store i).read [.session k] .time =
      s.store.read [.session k] .time :=
    fun k hk => refresh_of_ne _ _ _ (.inl (by simpa using hk))
  have hlives : ∀ k, Live s.uptime.val idleTime (Httpd.refresh s.uptime.val s.store i) k →
      Live s.uptime.val idleTime s.store k := by
    intro k hk
    by_cases hki : k = i
    · rw [hki]
      exact hlive
    · exact (live_congr (htimesame k hki) _ _).mp hk
  constructor
  · intro k
    by_cases hki : k = i
    · subst hki
      exact .inr ⟨_, peer, hi, hmax, s.uptime.pos, le_rfl, hnew, (hipsame k).trans hip⟩
    · exact (h.written k).congr (htimesame k hki) (hipsame k)
  · intro k j peer' hk hj hrk hrj
    exact h.distinct k j peer' (hlives k hk) (hlives j hj) ((records_congr (hipsame k) _).mp hrk)
      ((records_congr (hipsame j) _).mp hrj)

/-- The peer gets a slot. -/
theorem Sessions.Sound.give {s : Sessions} (h : s.Sound sessionMax idleTime) {peer : InAddr}
    (hother : ∀ i, 1 ≤ i → i ≤ sessionMax → Live s.uptime.val idleTime s.store i →
      ¬ Records (inetNtoa peer) s.store i) (hi : 1 ≤ i) (hmax : i ≤ sessionMax) :
    Sessions.Sound sessionMax idleTime
      { s with store := Httpd.give (inetNtoa peer) s.uptime.val s.store i } := by
  have hsame : ∀ k, k ≠ i → ∀ name, (Httpd.give (inetNtoa peer) s.uptime.val s.store i).read
      [.session k] name = s.store.read [.session k] name :=
    fun k hk name => give_of_ne _ _ _ hk [] name
  have hrecords := records_of_some (give_ip (inetNtoa peer) s.uptime.val s.store i)
  -- the new slot and a slot that was live before
  have hnew : ∀ k, k ≠ i → Live s.uptime.val idleTime s.store k →
      ¬ Records (inetNtoa peer) s.store k := by
    intro k hk hlive
    obtain ⟨-, -, hk1, hkmax, -⟩ := (h.written k).of_live hlive
    exact hother k hk1 hkmax hlive
  constructor
  · intro k
    by_cases hki : k = i
    · subst hki
      exact .inr ⟨_, peer, hi, hmax, s.uptime.pos, le_rfl, give_time _ _ _ _, give_ip _ _ _ _⟩
    · exact (h.written k).congr (hsame k hki _) (hsame k hki _)
  · intro k j peer' hk hj hrk hrj
    by_cases hki : k = i
    · by_cases hji : j = i
      · rw [hki, hji]
      · rw [hki, hrecords] at hrk
        rw [hrk, records_congr (hsame j hji _)] at hrj
        exact absurd hrj (hnew j hji ((live_congr (hsame j hji _) _ _).mp hj))
    · rw [records_congr (hsame k hki _)] at hrk
      rw [live_congr (hsame k hki _)] at hk
      by_cases hji : j = i
      · rw [hji, hrecords] at hrj
        rw [hrj] at hrk
        exact absurd hrk (hnew k hki hk)
      · rw [records_congr (hsame j hji _)] at hrj
        rw [live_congr (hsame j hji _)] at hj
        exact h.distinct k j peer' hk hj hrk hrj

/-- The step lemma of the sessions. -/
theorem Sessions.Sound.step {s : Sessions} (h : s.Sound sessionMax idleTime) (e : SessionEvent) :
    (s.step sessionMax idleTime e).Sound sessionMax idleTime := by
  cases e with
  | tick t => exact h.tick t
  | request peer =>
    rw [Sessions.step]
    obtain ⟨i, hi, hmax, hlive, hrecords, heq⟩ |
        ⟨hother, ⟨i, hi, hmax, hfree, heq⟩ | ⟨hall, heq⟩⟩ :=
      getSessionId_cases sessionMax idleTime s.uptime.val (inetNtoa peer) s.store
    · rw [heq]
      exact h.refresh hlive
    · rw [heq]
      exact h.give hother hi hmax
    · rw [heq]
      exact h
  | userWrite sid name text =>
    refine h.of_slots rfl fun i => .inr ?_
    simp [Sessions.step, Dir.read_write]
  | userUnlink sid name =>
    refine h.of_slots rfl fun i => .inr ?_
    simp [Sessions.step, Dir.read_remove]
  | logout sid =>
    refine h.of_slots rfl fun i => ?_
    by_cases hi : i = sid
    · exact .inl (by simp [Sessions.step, logout, Dir.read_remove, hi])
    · exact .inr (by simp [Sessions.step, logout, Dir.read_remove, hi])

theorem Sessions.sound_start (uptime : Uptime) :
    (Sessions.start uptime).Sound sessionMax idleTime := by
  have hnone : ∀ i, (Sessions.start uptime).store.read [.session i] .time = none :=
    fun i => Dir.read_empty _ _
  exact ⟨fun i => .inl (hnone i), fun i _ _ hi => absurd hi (not_live_of_none (hnone i) _ _)⟩

/-- What a peer gets: a slot that records it, and that holds nothing of a user if it was not
already its own; or nothing, while every slot is live for another peer. -/
def Sessions.Serves (sessionMax : ℕ) (idleTime : ℤ) (s : Sessions) (peer : InAddr) : Prop :=
  let r := getSessionId sessionMax idleTime s.uptime.val (inetNtoa peer) s.store
  (∃ i : ℕ, r.1 = i ∧ 1 ≤ i ∧ i ≤ sessionMax ∧ Records (inetNtoa peer) r.2 i ∧
      (¬ (Live s.uptime.val idleTime s.store i ∧ Records (inetNtoa peer) s.store i) →
        (∀ name, r.2.read [.session i, .user] name = none) ∧
          checkSession sessionMax r.2 i = -1 ∧ getSessiongrp sessionMax r.2 i = -1)) ∨
    r.1 = -1 ∧ ∀ i, 1 ≤ i → i ≤ sessionMax →
      Live s.uptime.val idleTime s.store i ∧
        ∃ other, other ≠ peer ∧ Records (inetNtoa other) s.store i

theorem userVal_of_none {name : SessionName} (h : s.read [.session i, .user] name = none) :
    userVal sessionMax s i name = -1 := by
  rw [userVal, Int.toNat_natCast, getVal, h]
  exact ite_self _

/-- A client gets a slot that records it, or all are taken by others. -/
theorem Sessions.Sound.serves {s : Sessions} (h : s.Sound sessionMax idleTime) (peer : InAddr) :
    s.Serves sessionMax idleTime peer := by
  rw [Sessions.Serves]
  obtain ⟨i, hi, hmax, hlive, hrecords, heq⟩ | ⟨hother, ⟨i, hi, hmax, hfree, heq⟩ | ⟨hall, heq⟩⟩ :=
    getSessionId_cases sessionMax idleTime s.uptime.val (inetNtoa peer) s.store
  · rw [heq]
    have hip : (Httpd.refresh s.uptime.val s.store i).read [.session i] .ip =
        s.store.read [.session i] .ip := refresh_of_ne _ _ _ (.inr (by decide))
    exact .inl ⟨i, rfl, hi, hmax, (records_congr hip _).mpr hrecords,
      fun hnew => absurd ⟨hlive, hrecords⟩ hnew⟩
  · rw [heq]
    have huser := give_user (inetNtoa peer) s.uptime.val s.store i
    exact .inl ⟨i, rfl, hi, hmax, (records_of_some (give_ip _ _ _ _) _).mpr rfl,
      fun _ => ⟨huser, userVal_of_none (huser _), userVal_of_none (huser _)⟩⟩
  · rw [heq]
    refine .inr ⟨rfl, fun i hi hmax => ⟨hall i hi hmax, ?_⟩⟩
    obtain ⟨-, other, -, -, -, -, -, hip⟩ := (h.written i).of_live (hall i hi hmax)
    have hrecords := (records_of_some hip (inetNtoa other)).mpr rfl
    refine ⟨other, ?_, hrecords⟩
    rintro rfl
    exact hother i hi hmax (hall i hi hmax) hrecords

/-- In every history from an empty store, no two live slots record one peer, and every peer is
served as it should be. -/
theorem sessions_kept (sessionMax : ℕ) (idleTime : ℤ) (uptime : Uptime)
    (events : List SessionEvent) :
    let s := Machine.run (Sessions.step sessionMax idleTime) (.start uptime) events
    s.Distinct idleTime ∧ ∀ peer, s.Serves sessionMax idleTime peer := by
  intro s
  have hsound : s.Sound sessionMax idleTime :=
    Machine.run_keeps (fun _ e h => h.step e) (Sessions.sound_start uptime) events
  exact ⟨hsound.distinct, hsound.serves⟩

end Wbr1310.Httpd
