import Wbr1310.Udhcpd.Reservations

/-!
# Offers of the DHCP server

An address can come from the old entry of the client, from the client itself, from a
search for a free address or from a search among the expired ones. Each way has its
own guards, and all have to come to an address that may be offered.
-/

namespace Wbr1310.Udhcpd

open Lib Program

/-- The address may be offered to the client, in a table with a window of time. An entry that
stands in the way is that of another client or a mark, which has no client, and it may have
expired in the window. -/
def Unheld (p : Packet) (leases : List Lease) (since till : ℕ) (a : UInt32) : Prop :=
  ∀ l ∈ leases, l.yiaddr = a → (l.chaddr ≠ p.chaddr ∨ l.chaddr = 0) →
    ∃ n, since ≤ n ∧ n ≤ till ∧ l.Expired n

/-- The address of an offer, for a packet received in the state `s`, when it is chosen in the
state `t`: neither the table at the receipt nor the one with the marks set meanwhile holds it. -/
structure OfferValid (cfg : ServerConfig) (p : Packet) (s t : Server) (a : UInt32) : Prop where
  range : cfg.InRange a
  dynamic : cfg.Dynamic a
  notServer : a ≠ cfg.server
  received : Unheld p s.leases s.now t.now a
  chosen : Unheld p t.leases s.now t.now a

/-- Whatever is sent in answer to the packet is an offer of a valid address. -/
def OffersValid (env : Env) (cfg : ServerConfig) (p : Packet) (s : Server) : Prop :=
  ∀ m now, (receive env cfg p s).2.log = .sent m now :: (s.receiving p).log →
    m.kind = .offer ∧ m.chaddr = p.chaddr ∧ ∃ t,
      offered env cfg p (s.receiving p) = (some m.yiaddr, t) ∧ t.now = now ∧
        OfferValid cfg p s t m.yiaddr

/-- What an offer depends on: the range ends before the last address of all, the server's own
address cannot be found in it, and a packet without a client address does not match a mark that
still holds. -/
structure OfferSafe (cfg : ServerConfig) (p : Packet) (s : Server) : Prop where
  bounded : cfg.Bounded
  server : cfg.InRange cfg.server → ¬ cfg.Dynamic cfg.server
  client : p.chaddr = 0 → ∀ l, s.entry p = some l →
    l.yiaddr = 0 ∨ cfg.InRange l.yiaddr ∧ cfg.Dynamic l.yiaddr ∧ l.Expired s.now

/-- The entries of clients without a reservation are for addresses of the range that are not
reserved. -/
def Placed (cfg : ServerConfig) (leases : List Lease) : Prop :=
  ∀ l ∈ leases, l.chaddr ≠ 0 → cfg.Unreserved l.chaddr → l.yiaddr ≠ 0 →
    (cfg.Bounded → cfg.InRange l.yiaddr) ∧ cfg.Dynamic l.yiaddr

section Placed

variable {cfg : ServerConfig} {leases : List Lease}

theorem Placed.replicate (cfg : ServerConfig) (n : ℕ) : Placed cfg (List.replicate n .blank) := by
  intro l hl hc
  obtain rfl := List.eq_of_mem_replicate hl
  exact absurd rfl hc

theorem Placed.storeLease (h : Placed cfg leases) (now : ℕ) {chaddr : Chaddr} {a : UInt32}
    {write : Lease → Lease} (hw : ∀ l, (write l).chaddr = chaddr ∧ (write l).yiaddr = a)
    (ha : chaddr ≠ 0 → cfg.Unreserved chaddr → a ≠ 0 →
      (cfg.Bounded → cfg.InRange a) ∧ cfg.Dynamic a) :
    Placed cfg (storeLease leases now chaddr a write).1 := by
  refine forall_mem_storeLease (fun hc => absurd rfl hc) h fun o _ => ?_
  rw [(hw o).1, (hw o).2]
  exact ha

theorem Placed.modify (h : Placed cfg leases) {write : Lease → Lease} (hw : Rewrites write)
    (k : ℕ) : Placed cfg (leases.modify k write) := by
  refine forall_mem_modify h (fun l hl hc => ?_) k
  have hco := (hw.chaddr l).resolve_right hc
  rw [hco, hw.yiaddr]
  exact hl (hco ▸ hc)

/-- Every step keeps the entries placed. -/
theorem Step.placed {s t : Server} (hs : Step cfg s t) (h : Placed cfg s.leases) :
    Placed cfg t.leases := by
  -- an entry the client already has may be written again
  have hold : ∀ {chaddr a}, s.Has chaddr a → chaddr ≠ 0 → cfg.Unreserved chaddr → a ≠ 0 →
      (cfg.Bounded → cfg.InRange a) ∧ cfg.Dynamic a := by
    rintro chaddr a ⟨l, hl, rfl, rfl⟩ hc hu ha
    exact h l hl hc hu ha
  cases hs with
  | elapse | outside | receive | offer | refuse => exact h
  | conflict a _ _ =>
    exact Placed.storeLease h s.now (fun _ => ⟨rfl, rfl⟩) fun hc => absurd rfl hc
  | reserve p a host _ _ _ hfor =>
    refine Placed.storeLease h s.now (fun _ => ⟨rfl, rfl⟩) ?_
    intro hc hu ha
    obtain hass | hhas := hfor
    · exact ⟨hass.range, hass.dynamic⟩
    · exact hold hhas hc hu ha
  | ack p a t host _ _ hfor =>
    simp only [Server.acked]
    split
    · exact h
    · rw [bindLease_eq]
      refine Placed.storeLease h s.now (fun _ => ⟨rfl, rfl⟩) ?_
      intro hc hu ha
      obtain ⟨l, hl, rfl⟩ | ⟨⟨l, hl, rfl⟩, -⟩ := hfor
      · exact absurd (hl.symm.trans hu) (by simp)
      · obtain ⟨hmem, hlc⟩ := Server.entry_has hl
        exact hold ⟨l, hmem, hlc, rfl⟩ hc hu ha
  | rewrite p k l write _ _ _ hw => exact Placed.modify h hw k

theorem Excluded.dynamic {r : FileRecord} (h : ¬ r.Excluded cfg) : cfg.Dynamic r.yiaddr := by
  rw [ServerConfig.Dynamic, ServerConfig.findStaticLeaseByYiaddr, List.find?_eq_none]
  intro l hl hy
  exact h ⟨l, hl, .inr (of_decide_eq_true hy)⟩

theorem readRecords_placed {now room : ℕ} {rs : List FileRecord} (h : Placed cfg leases) :
    Placed cfg (readRecords cfg now room rs leases) := by
  refine readRecords_keeps ?_ h
  intro r _ hr leases h
  rw [bindLease_eq]
  refine Placed.storeLease h now (fun _ => ⟨rfl, rfl⟩) ?_
  intro _ _ _
  exact ⟨fun _ => ⟨hr.1, hr.2.1⟩, Excluded.dynamic hr.2.2.2⟩

end Placed

/-- What is left of a table in a later state: an entry is only given up when it has expired. -/
structure Survives (s₀ s : Server) : Prop where
  keys : UniqueKeys s.leases
  later : s₀.now ≤ s.now
  stays : ∀ l ∈ s₀.leases, l.yiaddr ≠ 0 →
    l ∈ s.leases ∨ ∃ n, s₀.now ≤ n ∧ n ≤ s.now ∧ l.Expired n

section Survives

variable {cfg : ServerConfig} {p : Packet} {s₀ s : Server} {since : ℕ} {a : UInt32}

theorem Server.Assignable.expired (h : s.Assignable cfg since a) (hs : UniqueKeys s.leases)
    (ha : a ≠ 0) {l : Lease} (hl : l ∈ s.leases) (hla : l.yiaddr = a) :
    ∃ n, since ≤ n ∧ n ≤ s.now ∧ l.Expired n := by
  obtain ⟨k, hk⟩ := exists_findLeaseByYiaddr hl
  obtain ⟨m, hm, hy⟩ := findLeaseByYiaddr_slot hk
  obtain rfl : m = l := hs.yiaddr.eq_of_mem (List.mem_of_getElem? hm) hl hy (hy ▸ hla ▸ ha)
  exact h.stale k m (hla ▸ hk) hm

theorem Survives.conflict (h : Survives s₀ s) (ha : a ≠ 0)
    (hass : s.Assignable cfg s₀.now a) : Survives s₀ { s with
      leases := (addLease s.leases s.now 0 a cfg.conflictTime none).1 } := by
  refine ⟨h.keys.addLease s.now 0 a _ _, h.later, ?_⟩
  intro l hl hy
  obtain hmem | hexp := h.stays l hl hy
  · by_cases hla : l.yiaddr = a
    · -- the entry makes room for the mark, so it was found expired before the probe
      exact .inr (hass.expired h.keys ha hmem hla)
    · by_cases hexp : l.Expired s.now
      · exact .inr ⟨s.now, h.later, le_rfl, hexp⟩
      · left
        refine mem_storeLease_of_not_matches hmem ?_ hexp
        rintro (⟨h0, -⟩ | ⟨-, hl⟩)
        · exact h0 rfl
        · exact hla hl
  · exact .inr hexp

theorem Survives.seeks (cfg : ServerConfig) (s₀ : Server) :
    Seeks cfg s₀.now (Survives s₀) where
  later _ h := h.later
  calls _ _ h := ⟨h.keys, h.later, h.stays⟩
  elapse s d h := by
    refine ⟨h.keys, h.later.trans (Nat.le_add_right s.now d), ?_⟩
    intro l hl hy
    obtain hmem | ⟨n, hn, hle, hexp⟩ := h.stays l hl hy
    · exact .inl hmem
    · exact .inr ⟨n, hn, hle.trans (Nat.le_add_right s.now d), hexp⟩
  conflict _ _ h ha hass := h.conflict ha hass

theorem Survives.unheld (h : Survives s₀ s) (ha : a ≠ 0)
    (hs : Unheld p s.leases s₀.now s.now a) : Unheld p s₀.leases s₀.now s.now a := by
  intro l hl hla hc
  obtain hmem | hexp := h.stays l hl (hla ▸ ha)
  · exact hs l hmem hla hc
  · exact hexp

end Survives

section Offers

variable {env : Env} {cfg : ServerConfig} {p : Packet} {s t : Server} {a : UInt32}

/-- The old address of a client may be offered to it again. -/
theorem offerValid_of_entry {l : Lease} (hs : UniqueKeys s.leases) (hp : Placed cfg s.leases)
    (hsafe : OfferSafe cfg p s) (hu : cfg.Unreserved p.chaddr) (hl : s.entry p = some l)
    (ha : l.yiaddr ≠ 0) : OfferValid cfg p s (s.receiving p) l.yiaddr := by
  obtain ⟨hmem, hc⟩ := Server.entry_has hl
  -- the entry is the only one for its address
  have honly : (p.chaddr = 0 → l.Expired s.now) →
      Unheld p s.leases s.now s.now l.yiaddr := by
    intro hexp m hm hy hother
    obtain rfl : m = l := hs.yiaddr.eq_of_mem hm hmem hy (hy ▸ ha)
    have h0 : p.chaddr = 0 := by
      obtain hne | h0 := hother
      · exact absurd hc hne
      · exact hc ▸ h0
    exact ⟨s.now, le_rfl, le_rfl, hexp h0⟩
  have hplace : cfg.InRange l.yiaddr ∧ cfg.Dynamic l.yiaddr ∧ (p.chaddr = 0 → l.Expired s.now) := by
    by_cases h0 : p.chaddr = 0
    · obtain hz | ⟨hr, hd, hexp⟩ := hsafe.client h0 l hl
      · exact absurd hz ha
      · exact ⟨hr, hd, fun _ => hexp⟩
    · obtain ⟨hr, hd⟩ := hp l hmem (hc ▸ h0) (hc ▸ hu) ha
      exact ⟨hr hsafe.bounded, hd, fun h => absurd h h0⟩
  refine ⟨hplace.1, hplace.2.1, ?_, honly hplace.2.2, honly hplace.2.2⟩
  intro e
  exact hsafe.server (e ▸ hplace.1) (e ▸ hplace.2.1)

theorem offerValid_of_assignable (hsafe : OfferSafe cfg p s) (h : Survives (s.receiving p) t)
    (hass : t.Assignable cfg s.now a) (ha : a ≠ 0) : OfferValid cfg p s t a := by
  have hchosen : Unheld p t.leases s.now t.now a :=
    fun l hl hla _ => hass.expired h.keys ha hl hla
  refine ⟨hass.range hsafe.bounded, hass.dynamic, ?_, h.unheld ha hchosen, hchosen⟩
  rintro rfl
  exact hsafe.server (hass.range hsafe.bounded) hass.dynamic

theorem offered_valid (hs : UniqueKeys s.leases) (hp : Placed cfg s.leases)
    (hsafe : OfferSafe cfg p s) (hu : cfg.Unreserved p.chaddr)
    (h : offered env cfg p (s.receiving p) = (some a, t)) (ha : a ≠ 0) :
    OfferValid cfg p s t a := by
  have h₀ : Survives (s.receiving p) (s.receiving p) :=
    ⟨hs, le_rfl, fun l hl _ => .inl hl⟩
  obtain ⟨hsurv, hfor⟩ := offered_ended (Survives.seeks cfg (s.receiving p)) h₀ h
  obtain hass | ⟨rfl, l, hl, rfl⟩ := hfor a rfl ha
  · exact offerValid_of_assignable hsafe hsurv hass ha
  · exact offerValid_of_entry hs hp hsafe hu hl ha

/-- What the handling of a DISCOVER of a client without a reservation adds to the record: nothing,
or an offer of the address that was found. -/
theorem discover_log (env : Env) (hd : p.messageType = some dhcpDiscover)
    (hu : cfg.Unreserved p.chaddr) (s : Server) :
    (receive env cfg p s).2.log = (s.receiving p).log ∨ ∃ a t left,
      offered env cfg p (s.receiving p) = (some a, t) ∧ a ≠ 0 ∧ (receive env cfg p s).2.log =
        .sent ⟨.offer, p.chaddr, a, left⟩ t.now :: (s.receiving p).log := by
  have hout := receive_outcome env cfg p s
  generalize (receive env cfg p s).2 = t at hout ⊢
  cases hout with
  | silent | rewritten => exact .inl rfl
  | refused _ _ _ hno => exact absurd hd hno
  | reserved _ l hl => exact absurd (hl.symm.trans hu) (by simp)
  | searched o t _ _ ho | entered a t calls _ _ ho => exact .inl (offered_quiet ho).log
  | offered a left t calls _ _ ho ha =>
    exact .inr ⟨a, t, left, ho, ha, congrArg _ (offered_quiet ho).log⟩
  | acked q a calls file hr => exact absurd (hd.symm.trans hr) (by decide)

end Offers

/-- In every state the server reaches, after any lease file and any events: what is sent for a
DISCOVER of a client without a reservation is an offer of a valid address, if the configuration
and the state allow it. -/
theorem main_offersValid (env : Env) (cfg : ServerConfig) (maxLeases now : ℕ)
    (file : Option (List FileRecord)) (events : List Event) (p : Packet)
    (hd : p.messageType = some dhcpDiscover) (hu : cfg.Unreserved p.chaddr)
    (hsafe : OfferSafe cfg p (main env cfg file events (.start maxLeases now)).2) :
    OffersValid env cfg p (main env cfg file events (.start maxLeases now)).2 := by
  have hkeys := main_keeps env cfg file events (fun _ _ _ _ h => readRecords_uniqueKeys h)
    (fun s t hs h => hs.uniqueKeys h)
  have hplaced := main_keeps env cfg file events (P := Placed cfg)
    (fun _ _ _ _ h => readRecords_placed h) (fun s t hs h => hs.placed h)
  intro m sent hlog
  obtain hsame | ⟨a, t, left, ho, ha, hlog'⟩ := discover_log env hd hu _
  · exact absurd (congrArg List.length (hsame.symm.trans hlog)) (by simp)
  · obtain ⟨rfl, rfl⟩ := Record.sent.inj (List.cons.inj (hlog'.symm.trans hlog)).1
    exact ⟨rfl, rfl, t, ho, rfl, offered_valid (hkeys.always (UniqueKeys.replicate maxLeases))
      (hplaced.always (Placed.replicate cfg maxLeases)) hsafe hu ho ha⟩

def discoverOf (chaddr : Chaddr) : Packet := packetOf chaddr [0x35, 1, 1, 0xFF]

def Record.outgoing : Record → Option (Message × ℕ)
  | .received _ _ _ => none
  | .sent m now => some (m, now)

variable {p : Packet} {s : Server}

theorem lan_offerSafe (h0 : p.chaddr ≠ 0) : OfferSafe lan p s where
  bounded := by
    rw [ServerConfig.Bounded]
    decide
  server h := absurd h.1 (by decide)
  client h := absurd h h0

/-- An offer in the usual network. -/
theorem main_offersValid_lan :
    (receive quietNet lan (discoverOf 1)
      (main quietNet lan none [] (.start 2 1000)).2).2.log.head?.bind Record.outgoing =
        some (⟨.offer, 1, 0xC0A80064, 3600⟩, 1002) ∧
      OffersValid quietNet lan (discoverOf 1) (main quietNet lan none [] (.start 2 1000)).2 :=
  ⟨by decide +kernel, main_offersValid quietNet lan 2 1000 none [] (discoverOf 1)
    (by decide +kernel) (by decide) (lan_offerSafe (by decide))⟩

theorem OffersValid.of_outgoing {env : Env} {cfg : ServerConfig} {m : Message} {n : ℕ}
    (h : OffersValid env cfg p s) (hu : cfg.Unreserved p.chaddr)
    (hd : p.messageType = some dhcpDiscover)
    (ho : (receive env cfg p s).2.log.head?.bind Record.outgoing = some (m, n)) :
    ∃ t, t.now = n ∧ OfferValid cfg p s t m.yiaddr := by
  obtain hsame | ⟨a, t, left, -, -, hsent⟩ := discover_log env hd hu s
  · rw [hsame] at ho
    exact absurd ho (by simp [Server.receiving, Record.outgoing])
  · rw [hsent] at ho
    obtain ⟨rfl, rfl⟩ := Prod.mk.inj (Option.some.inj ho)
    obtain ⟨-, -, t', -, ht', hvalid⟩ := h _ _ hsent
    exact ⟨t', ht', hvalid⟩

theorem not_offersValid_of_mark {env : Env} {cfg : ServerConfig} {m : Message} {n : ℕ} {l : Lease}
    (hu : cfg.Unreserved p.chaddr) (hd : p.messageType = some dhcpDiscover)
    (ho : (receive env cfg p s).2.log.head?.bind Record.outgoing = some (m, n))
    (hl : l ∈ s.leases) (hy : l.yiaddr = m.yiaddr) (h0 : l.chaddr = 0) (hn : n ≤ l.expires.toNat) :
    ¬ OffersValid env cfg p s := by
  intro h
  obtain ⟨t, rfl, hvalid⟩ := h.of_outgoing hu hd ho
  obtain ⟨k, -, hk, hexp⟩ := hvalid.received l hl hy (.inr h0)
  rw [Lease.expired_iff (lt_of_le_of_lt (hk.trans hn) l.expires.toNat_lt)] at hexp
  omega

/-- The first probe after the start is answered, the others are not. -/
def conflictNet : Env := { quietNet with arpping := fun n => (n == 1, 2) }

def ownLan : ServerConfig := { lan with server := 0xC0A80064 }

def lastLan : ServerConfig := { lan with startAddr := 0xFFFFFFFE, endAddr := 0xFFFFFFFF }

/-- A packet without a client address is offered the address that a conflict was found for, the
server offers its own address, and an address before the range. -/
theorem offer_not_valid :
    ¬ OffersValid conflictNet lan (discoverOf 0)
      (main conflictNet lan none [discover 1] (.start 2 1000)).2 ∧
    ¬ OffersValid quietNet ownLan (discoverOf 1) (main quietNet ownLan none [] (.start 2 1000)).2 ∧
    ¬ OffersValid conflictNet lastLan (discoverOf 1)
      (main conflictNet lastLan none [] (.start 2 1000)).2 := by
  refine ⟨?_, ?_, ?_⟩
  · apply not_offersValid_of_mark (m := ⟨.offer, 0, 0xC0A80064, 3598⟩) (n := 1004)
      (l := ⟨0, 0xC0A80064, 4602, 0, []⟩)
    all_goals decide +kernel
  · intro h
    obtain ⟨t, -, hvalid⟩ := h.of_outgoing (m := ⟨.offer, 1, 0xC0A80064, 3600⟩) (n := 1002)
      (by decide) (by decide +kernel) (by decide +kernel)
    exact hvalid.notServer rfl
  · intro h
    obtain ⟨t, -, hvalid⟩ := h.of_outgoing (m := ⟨.offer, 1, 0x00000001, 3600⟩) (n := 1004)
      (by decide) (by decide +kernel) (by decide +kernel)
    exact absurd hvalid.range.1 (by decide)

end Wbr1310.Udhcpd
