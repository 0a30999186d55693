import Wbr1310.Comlib.SloopOrder

/-!
# The deadlines of the timers

`sloop_register_timeout` adds the seconds to the uptime and normalises the microseconds,
and `sloop_run` calls the handler once the uptime has reached the stored time. The two
members of the stored time are signed: microseconds from `2^31` on become negative and
are not normalised, and a deadline from second `2^31` on wraps. Such a timer is early.
-/

namespace Wbr1310.Comlib.Sloop

open Lib Links Program

/-- What `sloop_register_timeout` stores for a timer that is registered at the uptime. -/
def storedTime (uptime : Int) (secs usecs : UInt32) : Timeval :=
  normalise 2148 ⟨wrap (uptime + secs.toNat), wrap usecs.toNat⟩

def Timeval.micros (t : Timeval) : Int := t.sec * 1000000 + t.usec

def requestedMicros (uptime : Int) (secs usecs : UInt32) : Int :=
  (uptime + secs.toNat) * 1000000 + usecs.toNat

/-- The stored time is normalised and is the requested deadline. -/
structure Exact (time : Timeval) (requested : Int) : Prop where
  nonneg : 0 ≤ time.usec
  below : time.usec < 1000000
  exact : time.micros = requested

/-- The deadline can be stored: the microseconds are not negative as a signed number, and
the second of the deadline is one as well. -/
def Storable (uptime : Int) (secs usecs : UInt32) : Prop :=
  usecs.toNat < 2 ^ 31 ∧ uptime + secs.toNat + usecs.toNat / 1000000 < 2 ^ 31

instance (uptime : Int) (secs usecs : UInt32) : Decidable (Storable uptime secs usecs) :=
  inferInstanceAs (Decidable (_ ∧ _))

theorem wrap_of_fits {x : Int} (hlow : -2 ^ 31 ≤ x) (hhigh : x < 2 ^ 31) : wrap x = x := by
  rw [wrap, Int.bmod_eq_of_le] <;> omega

theorem wrap_lt (x : Int) : wrap x < 2 ^ 31 := by
  have h := Int.bmod_lt (x := x) (m := 2 ^ 32) (by decide)
  rw [wrap]
  omega

theorem wrap_neg {n : Nat} (hlow : 2 ^ 31 ≤ n) (hhigh : n < 2 ^ 32) : wrap n < 0 := by
  have h : wrap (n : Int) = n - 2 ^ 32 := by
    rw [wrap, ← Int.sub_bmod_right, Int.bmod_eq_of_le] <;> omega
  omega

theorem normalise_exact (n : Nat) (t : Timeval) (husec : 0 ≤ t.usec)
    (hrounds : t.usec < (n + 1) * 1000000) (hlow : -2 ^ 31 ≤ t.sec)
    (hhigh : t.sec + t.usec / 1000000 < 2 ^ 31) : Exact (normalise n t) t.micros := by
  induction n generalizing t with
  | zero => exact ⟨husec, by simpa [normalise] using hrounds, rfl⟩
  | succ n ih =>
    rw [normalise]
    split
    · next hcarry =>
      have hsec : wrap (t.sec + 1) = t.sec + 1 := wrap_of_fits (by omega) (by omega)
      rw [hsec]
      have hmicros : Timeval.micros ⟨t.sec + 1, t.usec - 1000000⟩ = t.micros := by
        simp only [Timeval.micros]
        omega
      rw [← hmicros]
      apply ih
      · simp only
        omega
      · simp only
        push_cast at hrounds
        omega
      · simp only
        omega
      · simp only
        omega
    · next hdone => exact ⟨husec, Int.not_le.mp hdone, rfl⟩

theorem normalise_sec_lt (n : Nat) (t : Timeval) (h : t.sec < 2 ^ 31) :
    (normalise n t).sec < 2 ^ 31 := by
  induction n generalizing t with
  | zero => exact h
  | succ n ih =>
    rw [normalise]
    split
    · exact ih _ (wrap_lt _)
    · exact h

theorem normalise_of_neg (n : Nat) (t : Timeval) (h : t.usec < 0) : normalise n t = t := by
  cases n with
  | zero => rfl
  | succ n => exact if_neg (by omega)

theorem storedTime_exact_iff (uptime : Int32) (secs usecs : UInt32) :
    Exact (storedTime uptime.toInt secs usecs) (requestedMicros uptime.toInt secs usecs) ↔
      Storable uptime.toInt secs usecs := by
  have hup := uptime.le_toInt
  have husecs := usecs.toNat_lt
  constructor
  · intro h
    have hsmall : usecs.toNat < 2 ^ 31 := by
      by_contra hbig
      have hneg := wrap_neg (Nat.not_lt.mp hbig) husecs
      have hnonneg := h.nonneg
      rw [storedTime, normalise_of_neg _ _ (by simpa only using hneg)] at hnonneg
      simp only at hnonneg
      exact absurd hnonneg (Int.not_le.mpr hneg)
    refine ⟨hsmall, ?_⟩
    have hsec : (storedTime uptime.toInt secs usecs).sec < 2 ^ 31 :=
      normalise_sec_lt _ _ (wrap_lt _)
    obtain ⟨hnonneg, hbelow, hexact⟩ := h
    simp only [Timeval.micros, requestedMicros] at hexact
    omega
  · rintro ⟨hsmall, hfits⟩
    have hsec : wrap (uptime.toInt + secs.toNat) = uptime.toInt + secs.toNat :=
      wrap_of_fits (by omega) (by omega)
    have husec : wrap (usecs.toNat : Int) = usecs.toNat := wrap_of_fits (by omega) (by omega)
    rw [storedTime, hsec, husec]
    apply normalise_exact
    · exact Int.natCast_nonneg _
    · change (usecs.toNat : Int) < _
      omega
    · change -2 ^ 31 ≤ uptime.toInt + secs.toNat
      omega
    · exact hfits

section Registering

variable {env : Env} {s s' : SloopData}

/-- Whatever the lists look like, a timer that was registered holds the stored time. -/
theorem sloopRegisterTimeout_stores (k : Nat) (secs usecs : UInt32) (callback : Callback) :
    Triple (fun s => s.ticks = k) (sloopRegisterTimeout env secs usecs callback)
      (fun r s => ∀ i, r = some i →
        (s.timeouts i).time = storedTime (wrap (env.uptime k)) secs usecs)
      fun _ => True := by
  apply Triple.bind (getTimeout_keeps (fun _ _ hs => hs) fun _ _ => trivial)
  intro entry
  cases entry with
  | none => exact Triple.pure fun _ _ _ h => nomatch h
  | some i =>
    let Holds (s : SloopData) : Prop :=
      (s.timeouts i).time = storedTime (wrap (env.uptime k)) secs usecs
    have hlinks : ∀ f, Triple Holds (onLinks f) (fun _ => Holds) fun _ => True :=
      onLinks_keeps (fun _ _ hs => hs) fun _ _ => trivial
    have hreturn : Triple Holds (pure (some i) : Run _) (fun r s => ∀ j, r = some j →
        (s.timeouts j).time = storedTime (wrap (env.uptime k)) secs usecs) fun _ => True := by
      apply Triple.pure
      intro s hs j hj
      exact Option.some.inj hj ▸ hs
    have hclock : Triple (fun s => s.ticks = k) (getUptime env)
        (fun now _ => now = wrap (env.uptime k)) fun _ => True := by
      apply Triple.of_some
      intro s hs
      exact ⟨_, _, rfl, by rw [hs]⟩
    apply Triple.bind hclock
    intro now
    apply Triple.bind (R := fun _ => Holds)
    · apply Triple.modify
      intro s hnow
      simp only [Holds, Function.update_self, storedTime, hnow]
    intro _
    apply Triple.bind (hlinks _)
    intro _
    apply Triple.get_bind_keep
    intro s _
    apply Triple.ite
    · intro _
      exact Triple.bind (hlinks _) fun _ => hreturn
    · intro _
      apply Triple.bind (Triple.ofOption fun _ _ => trivial)
      intro point
      exact Triple.bind (hlinks _) fun _ => hreturn

theorem time_of_registered {secs usecs : UInt32} {callback : Callback} {i : Fin maxSloopTimeout}
    (h : sloopRegisterTimeout env secs usecs callback s = (some (some i), s')) :
    (s'.timeouts i).time = storedTime (wrap (env.uptime s.ticks)) secs usecs := by
  have hstores : Triple _ (sloopRegisterTimeout env secs usecs callback) _ _ :=
    sloopRegisterTimeout_stores s.ticks secs usecs callback
  have hended := hstores.ended s rfl
  rw [h] at hended
  exact hended i rfl

theorem exists_registered (hfuel : 128 < env.fuel) (secs usecs : UInt32) (callback : Callback) :
    ∃ L i s', sloopRegisterTimeout env secs usecs callback { SloopData.bss with links := L } =
      (some (some i), s') := by
  obtain ⟨L, _, hl⟩ := sloopInit_spec
  obtain ⟨hempty, _⟩ | ⟨i, _, s', _, _, h, _⟩ := sloopRegisterTimeout_spec
    (s := { SloopData.bss with links := L }) hl hfuel secs usecs callback
  · exact absurd hempty (by simp [initialLists])
  · exact ⟨L, i, s', h⟩

end Registering

/-- What the entry held when the timer in it was registered last. -/
def lastStored (i : Fin maxSloopTimeout) : List Moment → Option SloopTimeout
  | [] => none
  | m :: rest => if m.event = .registered i then some (m.timeouts i) else lastStored i rest

theorem lastStored_of_ne {i : Fin maxSloopTimeout} {m : Moment} {log : List Moment}
    (h : m.event ≠ .registered i) : lastStored i (m :: log) = lastStored i log :=
  if_neg h

/-- If the handler of a timer is called at the last moment of the record, the entry holds
what was stored when the timer was registered. -/
def FiresStored : List Moment → Prop
  | [] => True
  | m :: rest => ∀ i now, m.event = .fired i now → lastStored i rest = some (m.timeouts i)

/-- The timers on the list hold what was stored when they were registered. -/
def HoldStored (s : SloopData) (ls : ListId → List Node) : Prop :=
  ∀ i, .timeout i ∈ ls .timeout → lastStored i s.log = some (s.timeouts i)

/-- The invariant: entries in use hold the deadline that they were given. -/
structure KeepsStored (s : SloopData) : Prop where
  lists : ∃ ls, Lists s.links ls ∧ HoldStored s ls
  fires : Always FiresStored s.log

section Step

variable {env : Env} {s s' : SloopData} {ls ls' : ListId → List Node}

theorem KeepsStored.of_lists (h : KeepsStored s) (hl : Lists s.links ls) : HoldStored s ls := by
  obtain ⟨ks, hk, hs⟩ := h.lists
  intro i hi
  rw [← (hk.family.ring .timeout).unique (hl.family.ring .timeout)] at hi
  exact hs i hi

theorem firesStored_cons {e : Event} {L : Links Node} {T : Fin maxSloopTimeout → SloopTimeout}
    {log : List Moment} (he : ∀ i now, e ≠ .fired i now) (h : Always FiresStored log) :
    Always FiresStored (⟨e, L, T⟩ :: log) :=
  always_cons.mpr ⟨fun i now hfired => absurd hfired (he i now), h⟩

/-- A newly registered timer holds what was stored, and the others keep theirs. -/
theorem KeepsStored.registered {i : Fin maxSloopTimeout} (h : KeepsStored s)
    (hl : Lists s.links ls) (hl' : Lists s'.links ls') (hins : Inserted s ls s' ls' i)
    (hlog : s'.log = ⟨.registered i, s'.links, s'.timeouts⟩ :: s.log) : KeepsStored s' := by
  refine ⟨⟨ls', hl', ?_⟩, ?_⟩
  · intro j hj
    rw [hlog]
    by_cases hij : j = i
    · subst hij
      exact if_pos rfl
    · obtain ⟨xs, ys, hsplit, hls'⟩ := hins.position
      have hold : Node.timeout j ∈ ls .timeout := by
        rw [hls', List.mem_append, List.mem_cons] at hj
        rw [hsplit.split, List.mem_append]
        obtain hx | he | hy := hj
        · exact Or.inl hx
        · exact absurd (Node.timeout.inj he) hij
        · exact Or.inr hy
      rw [lastStored_of_ne fun e => hij (Event.registered.inj e).symm, hins.others j hij]
      exact h.of_lists hl j hold
  · rw [hlog]
    exact firesStored_cons (by simp) h.fires

/-- The first timer fires with the deadline it holds. -/
theorem KeepsStored.fired {i : Fin maxSloopTimeout} {now : Int} (h : KeepsStored s)
    (hfirst : s.links.next (.head .timeout) = some (.timeout i)) :
    KeepsStored { s with log := ⟨.fired i now, s.links, s.timeouts⟩ :: s.log } := by
  obtain ⟨ls, hl, hs⟩ := h.lists
  refine ⟨⟨ls, hl, ?_⟩, always_cons.mpr ⟨?_, h.fires⟩⟩
  · intro j hj
    exact hs j hj
  · intro j now' he
    cases he
    exact hs i (hl.mem_of_next hfirst (by simp))

/-- Every step keeps the stored deadlines. -/
theorem keepsStored_invariant : TimerInvariant KeepsStored where
  lists _ h := h.lists.imp fun _ hl => hl.1
  removed s s' ls ls' h hl hl' hsub hT hlog := by
    have hlast : ∀ i, lastStored i s'.log = lastStored i s.log := by
      intro i
      obtain hsame | ⟨e, he, hpush⟩ := hlog
      · rw [hsame]
      · rw [hpush]
        exact lastStored_of_ne (he.1 i)
    refine ⟨⟨ls', hl', ?_⟩, ?_⟩
    · intro i hi
      rw [hlast, hT]
      exact h.of_lists hl i (hsub.subset hi)
    · obtain hsame | ⟨e, he, hpush⟩ := hlog
      · exact hsame ▸ h.fires
      · rw [hpush]
        exact firesStored_cons he.2 h.fires
  registered _ _ _ _ _ h hl hl' _ hins hlog := h.registered hl hl' hins hlog
  fired _ _ _ h hfirst _ := h.fired hfirst

/-- The stored deadlines hold in every run. -/
theorem program_keepsStored (startup : List Action) (n : Nat) (hfuel : 128 < env.fuel) :
    KeepsStored (program env startup n .bss).2 := by
  refine (keepsStored_invariant.roaming hfuel).program hfuel ?_ startup n
  intro L hl
  refine ⟨⟨_, hl, ?_⟩, always_nil.mpr trivial⟩
  intro i hi
  cases hi

end Step

/-- If the handler of a timer is called at the last moment of the record, and the timer was
registered with these arguments at this uptime, then the requested deadline has come. -/
def OnTime (uptime : Int) (secs usecs : UInt32) : List Moment → Prop
  | [] => True
  | m :: rest => ∀ i now, m.event = .fired i now →
      ∃ held, lastStored i rest = some held ∧
        (held.time = storedTime uptime secs usecs →
          requestedMicros uptime secs usecs ≤ now * 1000000)

/-- A timer that is registered with these arguments at this uptime is never early: its stored
time is the requested deadline, and no run calls its handler before. -/
structure NeverEarly (uptime : Int) (secs usecs : UInt32) : Prop where
  stored : ∀ env s callback i s', wrap (env.uptime s.ticks) = uptime →
    sloopRegisterTimeout env secs usecs callback s = (some (some i), s') →
    Exact (s'.timeouts i).time (requestedMicros uptime secs usecs)
  onTime : ∀ env startup n, 128 < env.fuel →
    Always (OnTime uptime secs usecs) (program env startup n .bss).2.log

theorem Exact.le_of_ge {time : Timeval} {requested now : Int} (h : Exact time requested)
    (hge : Timeval.ge ⟨now, 0⟩ time = true) : requested ≤ now * 1000000 := by
  obtain ⟨hnonneg, hbelow, hexact⟩ := h
  simp only [Timeval.micros] at hexact
  simp only [Timeval.ge] at hge
  split at hge <;> simp only [decide_eq_true_eq] at hge <;> omega

theorem onTime_of_exact {uptime : Int} {secs usecs : UInt32} {log : List Moment}
    (h : Exact (storedTime uptime secs usecs) (requestedMicros uptime secs usecs))
    (hfirst : Always FiresFirst log) (hstored : Always FiresStored log) :
    Always (OnTime uptime secs usecs) log := by
  intro t ht
  cases t with
  | nil => trivial
  | cons m rest =>
    intro i now he
    have hdue : FiresFirst (m :: rest) := hfirst (m :: rest) ht
    have hheld : FiresStored (m :: rest) := hstored (m :: rest) ht
    refine ⟨m.timeouts i, hheld i now he, ?_⟩
    intro htime
    exact h.le_of_ge (htime ▸ (hdue i now he).1)

def standingAt (uptime : Int) : Env where
  fuel := 129
  signalPipe := 5
  handler := fun _ _ _ => ⟨[], 0⟩
  uptime := fun _ => uptime
  select := fun _ => ⟨0, false, fun _ => false, fun _ => false, none⟩

theorem NeverEarly.exact {uptime : Int32} {secs usecs : UInt32}
    (h : NeverEarly uptime.toInt secs usecs) :
    Exact (storedTime uptime.toInt secs usecs) (requestedMicros uptime.toInt secs usecs) := by
  have hup : wrap uptime.toInt = uptime.toInt := wrap_of_fits uptime.le_toInt uptime.toInt_lt
  have hfuel : 128 < (standingAt uptime.toInt).fuel := Nat.lt_succ_self 128
  obtain ⟨L, i, s', hreg⟩ := exists_registered hfuel secs usecs ⟨0, 0⟩
  have htime : (s'.timeouts i).time = storedTime uptime.toInt secs usecs :=
    (time_of_registered hreg).trans (congrArg (fun u => storedTime u secs usecs) hup)
  exact htime ▸ h.stored _ _ _ i s' hup hreg

/-- A timer is never early exactly when its microseconds stay below `2^31` and the second of
its deadline does. -/
theorem neverEarly_iff (uptime : Int32) (secs usecs : UInt32) :
    NeverEarly uptime.toInt secs usecs ↔ Storable uptime.toInt secs usecs := by
  constructor
  · intro h
    exact (storedTime_exact_iff uptime secs usecs).mp h.exact
  · intro h
    have hexact := (storedTime_exact_iff uptime secs usecs).mpr h
    constructor
    · intro env s callback i s' hup hreg
      rw [time_of_registered hreg, hup]
      exact hexact
    · intro env startup n hfuel
      exact onTime_of_exact hexact (program_ordered startup n hfuel).first
        (program_keepsStored startup n hfuel).fires

/-- A timer for `2^31` microseconds, or about 36 minutes, is called at once: the stored
microseconds are negative. -/
theorem early_timer :
    ¬ NeverEarly (0 : Int32).toInt 0 2147483648 ∧
      storedTime 0 0 2147483648 = ⟨0, -2147483648⟩ ∧
      (program (standingAt 0) [.registerTimeout 0 2147483648 ⟨0, 0⟩] 1 .bss).2.log.map
        (fun m => m.event) = [.released 127, .fired 127 0, .registered 127,
          .registering .main] := by
  refine ⟨?_, ?_, ?_⟩
  · intro h
    exact absurd h.exact.nonneg (by decide +kernel)
  · decide +kernel
  · decide +kernel

end Wbr1310.Comlib.Sloop
