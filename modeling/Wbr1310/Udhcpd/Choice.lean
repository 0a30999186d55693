import Wbr1310.Udhcpd.Server

/-!
# The choice of an address

An offer is for the address of the client's entry, for the one the client asks for, or
for one that the search finds. `offered_ended` says what is known of the address and of the
state in which it is chosen: what `Seeks` lists is all that happens until then.
-/

namespace Wbr1310.Udhcpd

open Lib Program

def ServerConfig.InRange (cfg : ServerConfig) (a : UInt32) : Prop :=
  cfg.startAddr ≤ a ∧ a ≤ cfg.endAddr

/-- The search of `find_address` ends before the addresses wrap around. -/
def ServerConfig.Bounded (cfg : ServerConfig) : Prop := cfg.endAddr ≠ 0xFFFFFFFF

/-- The address is in the range and not reserved, and the first entry for it, if there is one,
had expired at some time after `since`. The clock may have wrapped meanwhile. -/
structure Server.Assignable (s : Server) (cfg : ServerConfig) (since : ℕ) (a : UInt32) :
    Prop where
  range : cfg.Bounded → cfg.InRange a
  dynamic : cfg.Dynamic a
  stale : ∀ k l, findLeaseByYiaddr s.leases a = some k → s.leases[k]? = some l →
    ∃ n, since ≤ n ∧ n ≤ s.now ∧ l.Expired n

variable {env : Env} {cfg : ServerConfig} {s s₀ : Server} {P : Server → Prop} {p : Packet}
  {a : UInt32} {l : Lease}

theorem ask_keeps {α : Type} {answer : ℕ → α} {E : Server → Prop}
    (hP : ∀ s c, P s → P { s with calls := c }) : Triple P (ask answer) (fun _ => P) E := by
  constructor
  intro s hs
  exact hP s _ hs

theorem Server.Assignable.elapse {since : ℕ} (h : s.Assignable cfg since a) (d : ℕ) :
    Server.Assignable { s with now := s.now + d } cfg since a := by
  refine ⟨h.range, h.dynamic, ?_⟩
  intro k l hk hl
  obtain ⟨n, hsince, hn, hexp⟩ := h.stale k l hk hl
  exact ⟨n, hsince, hn.trans (Nat.le_add_right s.now d), hexp⟩

theorem Server.free_stale {c : Bool} (h : s.free c a = true) {k : ℕ}
    (hk : findLeaseByYiaddr s.leases a = some k) (hl : s.leases[k]? = some l) :
    l.Expired s.now := by
  simp only [Server.free, hk, hl] at h
  simpa using (Bool.and_eq_true_iff.mp h).2

theorem Server.assignable_of_free {since : ℕ} {c : Bool} (h : s.free c a = true)
    (hsince : since ≤ s.now) (hr : cfg.Bounded → cfg.InRange a) (hd : cfg.Dynamic a) :
    s.Assignable cfg since a :=
  ⟨hr, hd, fun _ _ hk hl => ⟨s.now, hsince, le_rfl, Server.free_stale h hk hl⟩⟩

/-- What is kept while the server looks for an address, from the time `since` on. -/
structure Seeks (cfg : ServerConfig) (since : ℕ) (J : Server → Prop) : Prop where
  later : ∀ s, J s → since ≤ s.now
  calls : ∀ s c, J s → J { s with calls := c }
  elapse : ∀ s d, J s → J { s with now := s.now + d }
  conflict : ∀ s a, J s → a ≠ 0 → s.Assignable cfg since a →
    J { s with leases := (addLease s.leases s.now 0 a cfg.conflictTime none).1 }

section Seeking

variable {J : Server → Prop} {since : ℕ}

/-- What the search finds: an address that may be given out. -/
structure Ready (cfg : ServerConfig) (since : ℕ) (J : Server → Prop) (a : UInt32) (s : Server) :
    Prop where
  kept : J s
  assignable : s.Assignable cfg since a

variable {a : UInt32} {c : Bool} {p : Packet}

theorem checkIp_spec (hJ : Seeks cfg since J) (ha : a ≠ 0) :
    Triple (Ready cfg since J a) (checkIp env cfg a)
      (fun taken s => if taken then J s else Ready cfg since J a s) J := by
  apply Triple.bind (ask_keeps fun s c h => ⟨hJ.calls s c h.kept, h.assignable.range,
    h.assignable.dynamic, h.assignable.stale⟩)
  intro answer
  apply Triple.bind (R := fun _ => Ready cfg since J a)
  · exact Triple.modify fun s h => ⟨hJ.elapse s answer.2 h.kept, h.assignable.elapse answer.2⟩
  · intro _
    cases answer.1 with
    | false => exact Triple.pure fun s h => h
    | true =>
      constructor
      intro s h
      exact hJ.conflict s a h.kept ha h.assignable

def Found (cfg : ServerConfig) (since : ℕ) (J : Server → Prop) (a : UInt32) (s : Server) : Prop :=
  J s ∧ (a ≠ 0 → s.Assignable cfg since a)

/-- An address that passes may be given out. -/
theorem tryAddress_spec (hJ : Seeks cfg since J) (hr : cfg.Bounded → cfg.InRange a) :
    Triple J (tryAddress env cfg c a)
      (fun ok s => if ok then Found cfg since J a s else J s) J := by
  apply Triple.get_bind
  intro s hs
  have hno : Triple (fun t => t = s) (pure false : Run Bool)
      (fun ok s => if ok then Found cfg since J a s else J s) J := by
    apply Triple.pure
    rintro t rfl
    exact hs
  apply Triple.ite (fun _ => hno)
  intro hlow
  apply Triple.ite (fun _ => hno)
  intro hd
  refine Triple.ite (fun hfree => ?_) fun _ => hno
  have ha : a ≠ 0 := by
    rintro rfl
    exact hlow (.inl rfl)
  have hd : cfg.Dynamic a := by simpa [ServerConfig.Dynamic] using hd
  apply Triple.bind
  · apply (checkIp_spec hJ ha).pre
    rintro t rfl
    exact ⟨hs, Server.assignable_of_free hfree (hJ.later t hs) hr hd⟩
  · intro taken
    cases taken with
    | false => exact Triple.pure fun t ht => ⟨ht.kept, fun _ => ht.assignable⟩
    | true => exact Triple.pure fun t ht => ht

theorem ServerConfig.InRange.next (h : cfg.InRange a) (hb : cfg.Bounded) :
    cfg.startAddr ≤ a + 1 := by
  have hne : a.toNat + 1 < 2 ^ 32 := by
    have hle := UInt32.le_iff_toNat_le.mp h.2
    have hend : cfg.endAddr.toNat ≠ 2 ^ 32 - 1 := fun e => hb (UInt32.toNat_inj.mp e)
    have hlt := cfg.endAddr.toNat_lt
    omega
  have hstart := UInt32.le_iff_toNat_le.mp h.1
  rw [UInt32.le_iff_toNat_le, UInt32.toNat_add, UInt32.toNat_one, Nat.mod_eq_of_lt hne]
  omega

/-- By induction on the addresses that are left. -/
theorem findAddressFrom_spec (hJ : Seeks cfg since J) {n : ℕ}
    (ha : cfg.Bounded → cfg.startAddr ≤ a) :
    Triple J (findAddressFrom env cfg c n a) (Found cfg since J) J := by
  induction n generalizing a with
  | zero => exact Triple.fail fun _ h => h
  | succ n ih =>
    apply Triple.ite
    · intro hend
      apply Triple.bind (tryAddress_spec hJ fun hb => ⟨ha hb, hend⟩)
      intro ok
      cases ok with
      | false => exact ih fun hb => ServerConfig.InRange.next ⟨ha hb, hend⟩ hb
      | true => exact Triple.pure fun _ h => h
    · intro _
      exact Triple.pure fun s h => ⟨h, fun h0 => absurd rfl h0⟩

theorem findAddress_spec (hJ : Seeks cfg since J) :
    Triple J (findAddress env cfg c) (Found cfg since J) J :=
  findAddressFrom_spec hJ fun _ => UInt32.le_refl _

/-- An address for the client, or none: it is assignable, or that of the client's entry when the
packet was received, and then nothing has changed since. -/
def Offerable (cfg : ServerConfig) (J : Server → Prop) (s₀ : Server) (p : Packet) (a : UInt32)
    (s : Server) : Prop :=
  J s ∧ (a ≠ 0 → s.Assignable cfg s₀.now a ∨ s = s₀ ∧ ∃ l, s₀.entry p = some l ∧ l.yiaddr = a)

theorem Server.entry_has {s : Server} {l : Lease} (h : s.entry p = some l) :
    l ∈ s.leases ∧ l.chaddr = p.chaddr := by
  obtain ⟨k, hk, hl⟩ := Option.bind_eq_some_iff.mp h
  obtain ⟨m, hm, hc⟩ := findLeaseByChaddr_slot hk
  rw [hm] at hl
  exact ⟨List.mem_of_getElem? hm |> (Option.some.inj hl ▸ ·), Option.some.inj hl ▸ hc⟩

theorem proposed_offerable {s : Server} (h : proposed cfg p s ≠ 0) :
    s.Assignable cfg s.now (proposed cfg p s) ∨
      ∃ l, s.entry p = some l ∧ l.yiaddr = proposed cfg p s := by
  unfold proposed Server.entry at *
  cases hk : findLeaseByChaddr s.leases p.chaddr with
  | some k =>
    obtain ⟨l, hl, hc⟩ := findLeaseByChaddr_slot hk
    simp only [hl, Option.bind_some]
    exact .inr ⟨l, rfl, rfl⟩
  | none =>
    simp only [hk] at h ⊢
    cases hreq : p.optionWord dhcpRequestedIp with
    | none => simp [hreq] at h
    | some req =>
      simp only [hreq] at h ⊢
      split at h
      · next hc =>
        rw [if_pos hc]
        exact .inl (Server.assignable_of_free hc.2.2.2 le_rfl (fun _ => ⟨hc.1, hc.2.1⟩)
          hc.2.2.1)
      · exact absurd rfl h

theorem offered_spec (hJ : Seeks cfg s₀.now J) (h₀ : J s₀) :
    Triple (fun s => s = s₀) (offered env cfg p) (Offerable cfg J s₀ p) J := by
  have hfound : ∀ a s, Found cfg s₀.now J a s → Offerable cfg J s₀ p a s :=
    fun a s h => ⟨h.1, fun ha => .inl (h.2 ha)⟩
  apply Triple.get_bind
  rintro s rfl
  apply Triple.ite
  · intro h
    apply Triple.pure
    rintro t rfl
    exact ⟨h₀, fun ha => (proposed_offerable ha).imp_right fun hl => ⟨rfl, hl⟩⟩
  · intro _
    apply Triple.bind
    · apply (findAddress_spec hJ).pre
      rintro t rfl
      exact h₀
    · intro a
      apply Triple.ite
      · intro _
        exact Triple.pure (hfound a)
      · intro _
        exact ((findAddress_spec hJ).pre fun t ht => ht.1).mono (fun _ h => h) hfound
          fun _ h => h

theorem offered_ended {J : Server → Prop} {o : Option UInt32} {t : Server}
    (hJ : Seeks cfg s.now J) (hs : J s) (ho : offered env cfg p s = (o, t)) :
    J t ∧ ∀ a, o = some a → a ≠ 0 → t.Assignable cfg s.now a ∨
      t = s ∧ ∃ l, s.entry p = some l ∧ l.yiaddr = a := by
  have hspec : Ended (Offerable cfg J s p) J (offered env cfg p s) :=
    (offered_spec hJ hs).ended s rfl
  rw [ho] at hspec
  cases o with
  | none => exact ⟨hspec, fun a e => nomatch e⟩
  | some b =>
    refine ⟨hspec.1, ?_⟩
    rintro a e
    obtain rfl := Option.some.inj e
    exact hspec.2

end Seeking

end Wbr1310.Udhcpd
