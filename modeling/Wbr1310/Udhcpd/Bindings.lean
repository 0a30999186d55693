import Wbr1310.Lib.Machine
import Wbr1310.Udhcpd.Offers

/-!
# Bindings of the lease table

An entry that is marked as ACKed should be a binding that the server granted, with a
host name of its client. `add_lease` writes to the oldest expired slot and leaves
what it does not write: the mark, and the host name when it is given none. So the
mark and the name of an old binding can pass to an entry that is only offered.
-/

namespace Wbr1310.Udhcpd

open Lib Program

def AckSent (log : List Record) (chaddr : Chaddr) (yiaddr : UInt32) : Prop :=
  ∃ t now, .sent ⟨.ack, chaddr, yiaddr, t⟩ now ∈ log

def HostSent (log : List Record) (chaddr : Chaddr) (hostname : List UInt8) : Prop :=
  ∃ p leases now host, .received p leases now ∈ log ∧ p.chaddr = chaddr ∧
    p.hostName = some host ∧ hostname = hostnameField host

/-- The record of the lease file is one of the pair that was ACKed. -/
def FileRecord.IsFor (r : FileRecord) (l : Lease) : Prop :=
  r.acked ≠ 0 ∧ r.chaddr = l.chaddr ∧ r.yiaddr = l.yiaddr

/-- The entry is a binding: its pair was ACKed or restored from the lease file, and its host name
is empty, was sent by its client or restored with it. -/
structure Bound (file : Option (List FileRecord)) (log : List Record) (l : Lease) : Prop where
  pair : AckSent log l.chaddr l.yiaddr ∨ ∃ r ∈ file.getD [], r.IsFor l
  host : l.hostname = [] ∨ HostSent log l.chaddr l.hostname ∨
    ∃ r ∈ file.getD [], r.IsFor l ∧ l.hostname = hostnameField r.hostname

/-- Every entry of a client that is marked as ACKed is a binding. -/
def TableBound (file : Option (List FileRecord)) (log : List Record) (leases : List Lease) : Prop :=
  ∀ l ∈ leases, l.acked ≠ 0 → l.chaddr ≠ 0 → Bound file log l

/-- The entries are bindings, and so is what the lease file holds of clients. -/
structure Faithful (file : Option (List FileRecord)) (s : Server) : Prop where
  table : TableBound file s.log s.leases
  written : ∀ r ∈ s.leaseFile, r.chaddr ≠ 0 → ∃ l, Bound file s.log l ∧ r.IsFor l ∧
    r.hostname = l.hostname ++ List.replicate (64 - l.hostname.length) 0

def CleanOffer (env : Env) (cfg : ServerConfig) (p : Packet) (s : Server) : Prop :=
  match offered env cfg p (s.receiving p) with
  | (some a, t) => p.chaddr ≠ 0 → a ≠ 0 → ∀ o ∈ recycled t.leases t.now p.chaddr a, o.acked = 0
  | (none, _) => True

/-- A binding without a host name is entered in a slot without one. -/
def CleanAck (p : Packet) (s : Server) (a : UInt32) : Prop :=
  p.hostName = none → ∀ o ∈ recycled s.leases s.now p.chaddr a, o.hostname = []

/-- The lease time that the server appends does not change what is read as the host name. -/
def HostKept (env : Env) (p : Packet) : Prop :=
  ∀ options ∈ addSimpleOption env.fuel (p.field .options) dhcpLeaseTime infinite,
    (p.withOptions options).hostName = p.hostName

/-- A packet that leaves no stale host name in an entry. -/
structure Clean (env : Env) (cfg : ServerConfig) (s : Server) (p : Packet) : Prop where
  offer : p.messageType = some dhcpDiscover → cfg.Unreserved p.chaddr → CleanOffer env cfg p s
  ack : p.messageType = some dhcpRequest → ∀ l ∈ s.entry p, CleanAck p s l.yiaddr
  static : p.messageType = some dhcpRequest → ∀ l ∈ cfg.findStaticLeaseByChaddr p.chaddr,
    CleanAck p s l.yiaddr ∧ HostKept env p

def CleanEvent (env : Env) (cfg : ServerConfig) (s : Server) : Event → Prop
  | .packet p => Clean env cfg s p
  | .tick _ => True
  | .write => True

section Faithful

variable {file : Option (List FileRecord)} {cfg : ServerConfig} {s s' : Server}

theorem Bound.mono {log log' : List Record} {l : Lease} (h : Bound file log l)
    (hlog : log ⊆ log') : Bound file log' l := by
  constructor
  · refine h.pair.imp_left ?_
    rintro ⟨t, now, hm⟩
    exact ⟨t, now, hlog hm⟩
  · refine h.host.imp_right (Or.imp_left ?_)
    rintro ⟨p, leases, now, host, hm, hp⟩
    exact ⟨p, leases, now, host, hlog hm, hp⟩

theorem Faithful.mono (h : Faithful file s) (hl : s'.leases = s.leases)
    (hf : s'.leaseFile = s.leaseFile) (hlog : s.log ⊆ s'.log) : Faithful file s' := by
  constructor
  · rw [hl]
    intro l hmem ha hc
    exact (h.table l hmem ha hc).mono hlog
  · rw [hf]
    intro r hr hc
    obtain ⟨l, hb, hl⟩ := h.written r hr hc
    exact ⟨l, hb.mono hlog, hl⟩

theorem Faithful.calls (h : Faithful file s) (c : ℕ) : Faithful file { s with calls := c } :=
  h.mono rfl rfl (List.Subset.refl _)

theorem Faithful.elapse (h : Faithful file s) (d : ℕ) :
    Faithful file { s with now := s.now + d } :=
  h.mono rfl rfl (List.Subset.refl _)

theorem Faithful.push (h : Faithful file s) (r : Record) :
    Faithful file { s with log := r :: s.log } :=
  h.mono rfl rfl (List.subset_cons_self r s.log)

theorem TableBound.storeLease {log : List Record} {leases : List Lease}
    (h : TableBound file log leases) {now : ℕ} {chaddr : Chaddr} {a : UInt32}
    {write : Lease → Lease} (hw : ∀ o ∈ recycled leases now chaddr a,
      (write o).acked ≠ 0 → (write o).chaddr ≠ 0 → Bound file log (write o)) :
    TableBound file log (storeLease leases now chaddr a write).1 :=
  forall_mem_storeLease (fun hacked => absurd rfl hacked) h hw

theorem Faithful.store (h : Faithful file s) {chaddr : Chaddr} {a : UInt32}
    {write : Lease → Lease} (hw : ∀ o ∈ recycled s.leases s.now chaddr a,
      (write o).acked ≠ 0 → (write o).chaddr ≠ 0 → Bound file s.log (write o)) :
    Faithful file { s with leases := (storeLease s.leases s.now chaddr a write).1 } :=
  ⟨h.table.storeLease hw, h.written⟩

theorem Faithful.modify (h : Faithful file s) {write : Lease → Lease} (hw : Rewrites write)
    (k : ℕ) : Faithful file { s with leases := s.leases.modify k write } := by
  refine ⟨forall_mem_modify h.table (fun l hl hacked hc => ?_) k, h.written⟩
  have hco := (hw.chaddr l).resolve_right hc
  have hb := hl (hw.acked l ▸ hacked) (hco ▸ hc)
  constructor
  · simpa only [FileRecord.IsFor, hco, hw.yiaddr] using hb.pair
  · simpa only [FileRecord.IsFor, hco, hw.yiaddr, hw.hostname] using hb.host

theorem Faithful.conflict (h : Faithful file s) (a : UInt32) : Faithful file { s with
    leases := (addLease s.leases s.now 0 a cfg.conflictTime none).1 } :=
  h.store fun _ _ _ hc => absurd rfl hc

theorem Faithful.seeks (file : Option (List FileRecord)) (cfg : ServerConfig) (s₀ : Server) :
    Seeks cfg s₀.now fun s => Faithful file s ∧ s₀.now ≤ s.now where
  later _ h := h.2
  calls _ c h := ⟨h.1.calls c, h.2⟩
  elapse s d h := ⟨h.1.elapse d, h.2.trans (Nat.le_add_right s.now d)⟩
  conflict _ a h _ _ := ⟨h.1.conflict a, h.2⟩

theorem Faithful.write (h : Faithful file s) (cfg : ServerConfig) : Faithful file { s with
    leaseFile := s.leases.filterMap (·.fileRecord cfg s.now) } := by
  refine ⟨h.table, ?_⟩
  intro r hr hc
  obtain ⟨l, hl, hrec⟩ := List.mem_filterMap.mp hr
  unfold Lease.fileRecord at hrec
  split at hrec
  · next hla =>
    obtain rfl := Option.some.inj hrec
    exact ⟨l, h.table l hl hla.2 hc, ⟨hla.2, rfl, rfl⟩, rfl⟩
  · exact absurd hrec (by simp)

end Faithful

section Handling

variable {file : Option (List FileRecord)} {env : Env} {cfg : ServerConfig} {p : Packet}
  {s : Server}

theorem Faithful.rewrite (h : Faithful file s) {f : List FileRecord}
    (hf : Written cfg s.leaseFile s.leases s.now f) : Faithful file { s with leaseFile := f } := by
  obtain rfl | rfl := hf
  · exact h
  · exact h.write cfg

theorem writeLeases_faithful (env : Env) (cfg : ServerConfig) (h : Faithful file s) :
    Faithful file (writeLeases env cfg s).2 := by
  have hwritten : Written cfg s.leaseFile s.leases s.now (if env.fopen s.calls then
      s.leases.filterMap (·.fileRecord cfg s.now) else s.leaseFile) := by
    split
    · exact .inr rfl
    · exact .inl rfl
  rw [writeLeases_eq]
  exact (h.rewrite hwritten).calls (s.calls + 1)

theorem bound_of_ack {q : Packet} {a t e : UInt32} {o : Lease} {log : List Record}
    (hrec : ∃ leases now, .received p leases now ∈ log) (hq : q.chaddr = p.chaddr)
    (hhost : q.hostName = p.hostName) (hclean : CleanAck p s a)
    (ho : o ∈ recycled s.leases s.now p.chaddr a) :
    Bound file (.sent ⟨.ack, p.chaddr, a, t⟩ s.now :: log)
      { Lease.assign q.chaddr a e q.hostName o with acked := 1 } := by
  obtain ⟨leases, now, hrec⟩ := hrec
  rw [hq, hhost]
  refine ⟨.inl ⟨t, s.now, List.mem_cons_self⟩, ?_⟩
  cases hname : p.hostName with
  | none => exact .inl (hclean hname o ho)
  | some host =>
    exact .inr (.inl ⟨p, leases, now, host, List.mem_cons_of_mem _ hrec, rfl, hname, rfl⟩)

theorem Clean.ackOf (h : Clean env cfg s p) (hr : p.messageType = some dhcpRequest) {q : Packet}
    {a : UInt32} (hfor : AckOf env cfg p (s.receiving p) q a) :
    CleanAck p s a ∧ q.hostName = p.hostName := by
  cases hfor with
  | static l options hl _ _ ho =>
    obtain ⟨hclean, hhost⟩ := h.static hr l hl
    exact ⟨hclean, hhost options ho⟩
  | entry l hl => exact ⟨h.ack hr l hl, rfl⟩

theorem acked_faithful (h : Clean env cfg s p) (hs : Faithful file s)
    (hr : p.messageType = some dhcpRequest) {q : Packet} {a t : UInt32}
    (hfor : AckOf env cfg p (s.receiving p) q a) :
    Faithful file { s.receiving p with
      leases := (s.receiving p).acked q a t q.hostName
      log := .sent ⟨.ack, p.chaddr, a, t⟩ s.now :: (s.receiving p).log } := by
  obtain ⟨hclean, hhost⟩ := h.ackOf hr hfor
  have hsent : Faithful file { s.receiving p with
      log := .sent ⟨.ack, p.chaddr, a, t⟩ s.now :: (s.receiving p).log } := (hs.push _).push _
  rw [Server.acked]
  split
  · exact hsent
  · rw [bindLease_eq]
    refine hsent.store ?_
    intro o ho _ _
    rw [hfor.chaddr] at ho
    exact bound_of_ack ⟨s.leases, s.now, List.mem_cons_self⟩ hfor.chaddr hhost hclean ho

theorem offered_faithful (hs : Faithful file s) {o : Option UInt32} {t : Server}
    (ho : offered env cfg p (s.receiving p) = (o, t)) : Faithful file t :=
  (offered_ended (Faithful.seeks file cfg (s.receiving p)) ⟨hs.push _, le_rfl⟩ ho).1.1

theorem enterOffer_faithful (h : Clean env cfg s p) (hs : Faithful file s)
    (hd : p.messageType = some dhcpDiscover) (hu : cfg.Unreserved p.chaddr) {a : UInt32}
    {t : Server} (ho : offered env cfg p (s.receiving p) = (some a, t)) (ha : a ≠ 0) :
    Faithful file { t with
      leases := (addLease t.leases t.now p.chaddr a cfg.offerTime p.hostName).1 } := by
  have hclean := h.offer hd hu
  rw [CleanOffer, ho] at hclean
  refine (offered_faithful hs ho).store ?_
  intro o ho hacked hc
  exact absurd (hclean hc ha o ho) hacked

theorem receive_faithful (h : Clean env cfg s p) (hs : Faithful file s) :
    Faithful file (receive env cfg p s).2 := by
  have hpush : Faithful file (s.receiving p) := hs.push _
  have hout := receive_outcome env cfg p s
  generalize (receive env cfg p s).2 = t at hout ⊢
  cases hout with
  | silent calls => exact hpush.calls calls
  | refused calls m => exact (hpush.push _).calls calls
  | reserved calls l => exact (hpush.push _).calls calls
  | searched o t _ _ ho => exact offered_faithful hs ho
  | entered a t calls hd hu ho ha => exact (enterOffer_faithful h hs hd hu ho ha).calls calls
  | offered a left t calls hd hu ho ha =>
    exact ((enterOffer_faithful h hs hd hu ho ha).push _).calls calls
  | acked q a calls f hr hfor _ hf =>
    exact Faithful.calls (Faithful.rewrite (acked_faithful h hs hr hfor) hf) calls
  | rewritten k l write _ _ hw => exact hpush.modify hw k

end Handling

section Runs

variable {file : Option (List FileRecord)} {env : Env} {cfg : ServerConfig}

theorem readRecords_bound {log : List Record} {now room : ℕ} {rs : List FileRecord}
    {leases : List Lease} (hrs : ∀ r ∈ rs, r ∈ file.getD []) (h : TableBound file log leases) :
    TableBound file log (readRecords cfg now room rs leases) := by
  refine readRecords_keeps ?_ h
  intro r hmem hr leases h
  rw [bindLease_eq]
  apply h.storeLease
  intro o _ _ _
  have hfor : ∀ l : Lease, l.chaddr = r.chaddr → l.yiaddr = r.yiaddr → r.IsFor l :=
    fun l hc hy => ⟨hr.2.2.1, hc.symm, hy.symm⟩
  exact ⟨.inr ⟨r, hrs r hmem, hfor _ rfl rfl⟩,
    .inr (.inr ⟨r, hrs r hmem, hfor _ rfl rfl, rfl⟩)⟩

/-- The start of `main`, before the loop. -/
def boot (env : Env) (cfg : ServerConfig) (file : Option (List FileRecord)) : Run Unit := do
  readLeases cfg file
  writeLeases env cfg

section

variable (env : Env) (cfg : ServerConfig) (file : Option (List FileRecord))

theorem boot_eq (s : Server) :
    boot env cfg file s = (some (), (writeLeases env cfg (readLeases cfg file s).2).2) := by
  have hread : readLeases cfg file s = (some (), (readLeases cfg file s).2) := by
    cases file with
    | none => rfl
    | some rs => rfl
  rw [boot, bind_of_some hread, writeLeases_eq]

theorem boot_faithful (maxLeases now : ℕ) :
    Faithful file (boot env cfg file (.start maxLeases now)).2 := by
  have hblank : TableBound file [] (List.replicate maxLeases .blank) := by
    intro l hl hacked
    obtain rfl := List.eq_of_mem_replicate hl
    exact absurd rfl hacked
  rw [boot_eq]
  apply writeLeases_faithful
  cases file with
  | none => exact ⟨hblank, fun r hr => absurd hr (by simp [readLeases, Server.start])⟩
  | some rs => exact ⟨readRecords_bound (fun r hr => hr) hblank,
      fun r hr => absurd hr (by simp [readLeases, Server.start])⟩

/-- What the server does is to start and to serve. -/
theorem main_eq_serve (events : List Event) (s : Server) :
    main env cfg file events s = serve env cfg events (boot env cfg file s).2 := by
  have hmain : main env cfg file events = (boot env cfg file >>= fun _ => serve env cfg events) :=
    (bind_assoc_program _ _ _).symm
  rw [hmain, bind_of_some (boot_eq env cfg file s), boot_eq]

end

/-- In every run in which each offer is entered in a slot without the mark and each binding
without a host name in a slot without one, every entry of a client that is marked as ACKed, and
every record of a client in the lease file, is a binding that the server granted or restored. -/
theorem main_faithful (env : Env) (cfg : ServerConfig) (maxLeases now : ℕ)
    (file : Option (List FileRecord)) (events : List Event)
    (hclean : Machine.Along (fun s e => (handle env cfg e s).2) (CleanEvent env cfg)
      (boot env cfg file (.start maxLeases now)).2 events) :
    Faithful file (main env cfg file events (.start maxLeases now)).2 := by
  rw [main_eq_serve]
  refine Machine.forEach_keeps ?_ (boot_faithful env cfg file maxLeases now) (.of_along hclean)
  intro s e hs hc
  cases e with
  | packet p => exact receive_faithful hc hs
  | tick seconds => exact hs.elapse seconds
  | write => exact writeLeases_faithful env cfg hs

end Runs

instance (env : Env) (cfg : ServerConfig) (p : Packet) (s : Server) :
    Decidable (CleanOffer env cfg p s) := by
  unfold CleanOffer
  rcases offered env cfg p (s.receiving p) with ⟨_ | a, t⟩ <;> infer_instance

instance (p : Packet) (s : Server) (a : UInt32) : Decidable (CleanAck p s a) :=
  inferInstanceAs (Decidable (_ → _))

instance (env : Env) (p : Packet) : Decidable (HostKept env p) :=
  inferInstanceAs (Decidable (∀ _ ∈ addSimpleOption _ _ _ _, _))

instance (env : Env) (cfg : ServerConfig) (s : Server) (p : Packet) :
    Decidable (Clean env cfg s p) :=
  decidable_of_iff ((p.messageType = some dhcpDiscover → cfg.Unreserved p.chaddr →
      CleanOffer env cfg p s) ∧
    (p.messageType = some dhcpRequest → ∀ l ∈ s.entry p, CleanAck p s l.yiaddr) ∧
    (p.messageType = some dhcpRequest → ∀ l ∈ cfg.findStaticLeaseByChaddr p.chaddr,
      CleanAck p s l.yiaddr ∧ HostKept env p))
    ⟨fun ⟨ho, ha, hs⟩ => ⟨ho, ha, hs⟩, fun h => ⟨h.offer, h.ack, h.static⟩⟩

instance (env : Env) (cfg : ServerConfig) (s : Server) (e : Event) :
    Decidable (CleanEvent env cfg s e) :=
  match e with
  | .packet p => inferInstanceAs (Decidable (Clean env cfg s p))
  | .tick _ | .write => .isTrue trivial

/-- The table after two clients. -/
theorem main_faithful_twoClients :
    ⟨1, 0xC0A80064, 4602, 1, []⟩ ∈
      (main quietNet lan none twoClients (.start 2 1000)).2.leases ∧
      Faithful none (main quietNet lan none twoClients (.start 2 1000)).2 :=
  ⟨by decide +kernel, main_faithful quietNet lan 2 1000 none twoClients (by decide +kernel)⟩

/-- A client gets a lease with its host name, which runs out; then another one asks for an offer. -/
def secondClient : List Event :=
  [discover 1, requestFirst 1 [0x0c, 1, 0x41], .tick 4000, discover 2]

def noAck (x : Chaddr) (log : List Record) : Bool :=
  log.all fun r => r.message.all fun m => !(m.kind == .ack && m.chaddr == x)

theorem not_ackSent {x : Chaddr} {a : UInt32} {log : List Record} (h : noAck x log = true) :
    ¬ AckSent log x a := by
  rintro ⟨t, now, hm⟩
  have hr := List.all_eq_true.mp h _ hm
  simp [Record.message] at hr

theorem not_faithful_of_mem {s : Server} {l : Lease} (hl : l ∈ s.leases) (ha : l.acked ≠ 0)
    (hc : l.chaddr ≠ 0) (hlog : noAck l.chaddr s.log = true) : ¬ Faithful none s := by
  intro h
  obtain hsent | ⟨r, hr, -⟩ := (h.table l hl ha hc).pair
  · exact not_ackSent hlog hsent
  · exact absurd hr (by simp)

/-- In a table with one slot, the second client is only offered its address, but its entry has
the mark and the host name of the first one. -/
theorem offer_takes_binding :
    ⟨2, 0xC0A80065, 5064, 1, [0x41]⟩ ∈
      (main quietNet lan none secondClient (.start 1 1000)).2.leases ∧
      ¬ Faithful none (main quietNet lan none secondClient (.start 1 1000)).2 := by
  have hmem : ⟨2, 0xC0A80065, 5064, 1, [0x41]⟩ ∈
      (main quietNet lan none secondClient (.start 1 1000)).2.leases := by decide +kernel
  exact ⟨hmem, not_faithful_of_mem hmem (by decide) (by decide) (by decide +kernel)⟩

end Wbr1310.Udhcpd
