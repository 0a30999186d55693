import Wbr1310.Udhcpd.Outcomes

/-!
# What the DHCP server can do

`Step` lists the changes the server makes, each with the condition under which the
code makes it. Every run of the main loop is a sequence of such steps
(`serve_follows`), so what holds in every run is shown of one step at a time.
-/

namespace Wbr1310.Udhcpd

open Lib Program

/-- The packet is the one received last and nothing was sent since. -/
def Server.Handles (s : Server) (p : Packet) : Prop :=
  ∃ leases now, s.log.head? = some (.received p leases now)

/-- The table has an entry for the client and the address. -/
def Server.Has (s : Server) (chaddr : Chaddr) (yiaddr : UInt32) : Prop :=
  ∃ l ∈ s.leases, l.chaddr = chaddr ∧ l.yiaddr = yiaddr

/-- The address is the one that is reserved for the client. -/
def ServerConfig.Reserves (cfg : ServerConfig) (chaddr : Chaddr) (a : UInt32) : Prop :=
  ∃ l, cfg.findStaticLeaseByChaddr chaddr = some l ∧ l.yiaddr = a

/-- One change of the state of the server. -/
inductive Step (cfg : ServerConfig) : Server → Server → Prop where
  | elapse (s : Server) (seconds : ℕ) : Step cfg s { s with now := s.now + seconds }
  | outside (s : Server) (calls : ℕ) (leaseFile : List FileRecord) :
      Step cfg s { s with calls := calls, leaseFile := leaseFile }
  | receive (s : Server) (p : Packet) :
      Step cfg s { s with log := .received p s.leases s.now :: s.log }
  | conflict (s : Server) {since : ℕ} (a : UInt32) (ha : a ≠ 0) (h : s.Assignable cfg since a) :
      Step cfg s { s with leases := (addLease s.leases s.now 0 a cfg.conflictTime none).1 }
  | reserve (s : Server) {since : ℕ} (p : Packet) (a : UInt32) (host : Option (List UInt8))
      (hp : s.Handles p) (hu : cfg.Unreserved p.chaddr) (ha : a ≠ 0)
      (h : s.Assignable cfg since a ∨ s.Has p.chaddr a) :
      Step cfg s { s with leases := (addLease s.leases s.now p.chaddr a cfg.offerTime host).1 }
  | offer (s : Server) (p : Packet) (a t : UInt32) (ha : a ≠ 0)
      (h : cfg.Reserves p.chaddr a ∨ s.Has p.chaddr a) :
      Step cfg s { s with log := .sent ⟨.offer, p.chaddr, a, t⟩ s.now :: s.log }
  | ack (s : Server) (p : Packet) (a t : UInt32) (host : Option (List UInt8))
      (hp : s.log.head? = some (.received p s.leases s.now))
      (hr : p.messageType = some dhcpRequest)
      (h : cfg.Reserves p.chaddr a ∨
        (∃ l, s.entry p = some l ∧ l.yiaddr = a) ∧ t = ackLeaseTime cfg p) :
      Step cfg s { s with
        leases := s.acked p a t host
        log := .sent ⟨.ack, p.chaddr, a, t⟩ s.now :: s.log }
  | refuse (s : Server) (m : Message) (hm : m.kind = .nak ∨ m.kind = .inform) :
      Step cfg s { s with log := .sent m s.now :: s.log }
  | rewrite (s : Server) (p : Packet) (k : ℕ) (l : Lease) (write : Lease → Lease)
      (hp : s.Handles p) (hl : s.leases[k]? = some l) (hc : l.chaddr = p.chaddr ∨ l.Expired s.now)
      (hw : Rewrites write) :
      Step cfg s { s with leases := s.leases.modify k write }

/-- The second state is reached from the first one by such changes. -/
def Follows (cfg : ServerConfig) : Server → Server → Prop := Relation.ReflTransGen (Step cfg)

variable {env : Env} {cfg : ServerConfig} {s₀ s t : Server} {p : Packet} {a : UInt32}

theorem Follows.step (h : Follows cfg s₀ s) (hs : Step cfg s t) : Follows cfg s₀ t :=
  Relation.ReflTransGen.tail h hs

theorem Follows.calls (h : Follows cfg s₀ s) (c : ℕ) :
    Follows cfg s₀ { s with calls := c } :=
  h.step (.outside s c s.leaseFile)

/-- What holds while an address is looked for. -/
structure Quiet (cfg : ServerConfig) (s₀ s : Server) : Prop where
  follows : Follows cfg s₀ s
  later : s₀.now ≤ s.now
  log : s.log = s₀.log

theorem Quiet.seeks (cfg : ServerConfig) (s₀ : Server) : Seeks cfg s₀.now (Quiet cfg s₀) where
  later _ h := h.later
  calls _ c h := ⟨h.follows.calls c, h.later, h.log⟩
  elapse s d h := ⟨h.follows.step (.elapse s d), h.later.trans (Nat.le_add_right s.now d), h.log⟩
  conflict s a h ha hass := ⟨h.follows.step (.conflict s a ha hass), h.later, h.log⟩

theorem offered_quiet {o : Option UInt32} (ho : offered env cfg p s = (o, t)) : Quiet cfg s t :=
  (offered_ended (Quiet.seeks cfg s) ⟨.refl, le_rfl, rfl⟩ ho).1

/-- The address that was chosen is entered for the client. -/
theorem enter_follows (hs : s.Handles p) (hu : cfg.Unreserved p.chaddr)
    (ho : offered env cfg p s = (some a, t)) (ha : a ≠ 0) (host : Option (List UInt8)) :
    Follows cfg s { t with
      leases := (addLease t.leases t.now p.chaddr a cfg.offerTime host).1 } := by
  obtain ⟨hquiet, hfor⟩ := offered_ended (Quiet.seeks cfg s) ⟨.refl, le_rfl, rfl⟩ ho
  obtain ⟨leases, now, hhead⟩ := hs
  have hown : t.Assignable cfg s.now a ∨ t.Has p.chaddr a := by
    refine (hfor a rfl ha).imp_right ?_
    rintro ⟨rfl, l, hl, hla⟩
    obtain ⟨hmem, hc⟩ := Server.entry_has hl
    exact ⟨l, hmem, hc, hla⟩
  exact hquiet.follows.step (.reserve t p a host ⟨leases, now, hquiet.log ▸ hhead⟩ hu ha hown)

theorem Outcome.follows (h : Outcome env cfg p s t)
    (hs : s.log.head? = some (.received p s.leases s.now)) : Follows cfg s t := by
  have hp : s.Handles p := ⟨s.leases, s.now, hs⟩
  have hstart : Follows cfg s s := .refl
  cases h with
  | silent calls => exact hstart.calls calls
  | refused calls m hm => exact (hstart.step (.refuse s m hm)).calls calls
  | reserved calls l hl =>
    exact (hstart.step (.offer s p l.yiaddr infinite (ServerConfig.static_found hl).2
      (.inl ⟨l, hl, rfl⟩))).calls calls
  | searched o t _ _ ho => exact (offered_quiet ho).follows
  | entered a t calls _ hu ho ha => exact (enter_follows hp hu ho ha p.hostName).calls calls
  | offered a left t calls _ hu ho ha hslot =>
    obtain ⟨o, ho'⟩ := storeLease_isSome_iff.mp hslot
    exact ((enter_follows hp hu ho ha p.hostName).step (.offer _ p a left ha
      (.inr ⟨_, (recycled_spec _ ho').2.2, rfl, rfl⟩))).calls calls
  | acked q a calls file hr hfor =>
    have hack : Follows cfg s { s with
        leases := s.acked q a (ackLeaseTime cfg q) q.hostName
        log := .sent ⟨.ack, p.chaddr, a, ackLeaseTime cfg q⟩ s.now :: s.log } := by
      cases hfor with
      | static l options hl =>
        exact hstart.step (.ack s p l.yiaddr _ _ hs hr (.inl ⟨l, hl, rfl⟩))
      | entry l hl =>
        exact hstart.step (.ack s p l.yiaddr _ p.hostName hs hr (.inr ⟨⟨l, hl, rfl⟩, rfl⟩))
    exact hack.step (.outside _ calls file)
  | rewritten k l write hl hc hw => exact hstart.step (.rewrite s p k l write hp hl hc hw)

/-- The handling of a packet is a sequence of steps. -/
theorem receive_follows (env : Env) (cfg : ServerConfig) (p : Packet) (s : Server) :
    Follows cfg s (receive env cfg p s).2 :=
  .head (.receive s p) ((receive_outcome env cfg p s).follows rfl)

theorem writeLeases_follows (env : Env) (cfg : ServerConfig) (s : Server) :
    Follows cfg s (writeLeases env cfg s).2 := by
  rw [writeLeases_eq]
  exact .single (.outside s _ _)

/-- Every run of the main loop is a sequence of steps. -/
theorem serve_follows (env : Env) (cfg : ServerConfig) (events : List Event) (s : Server) :
    Follows cfg s (serve env cfg events s).2 := by
  have hserve : Triple (Follows cfg s) (serve env cfg events) (fun _ => Follows cfg s)
      (Follows cfg s) := by
    refine Triple.forEach fun e _ => Triple.of_always fun t ht => ht.trans ?_
    cases e with
    | packet p => exact receive_follows env cfg p t
    | tick seconds => exact .single (.elapse t seconds)
    | write => exact writeLeases_follows env cfg t
  exact hserve.always .refl

end Wbr1310.Udhcpd
