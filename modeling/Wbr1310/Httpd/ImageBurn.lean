import Wbr1310.Httpd.ImageCheck

/-!
# What is burnt of an accepted image

`v2_burn_image` walks over the image with a loop of its own. On an accepted image it
takes the same steps as the check, so it writes the blocks the check found right, in
their order. The check does not look at the end of the device names and lets a wrapped
size pass; where that happens the burn opens another name or writes other memory.
-/

namespace Wbr1310.Httpd

open Lib List

variable (machine : Machine) (img : Image) (signature : List UInt8) (frame : ℤ → UInt8)

/-- The write that a block asks for: its device name ends with its field at the latest. -/
def ImgBlock.write (b : ImgBlock) : Write :=
  ⟨b.devname.takeWhile fun c => c ≠ 0, b.offset, b.payload⟩

/-- `v2_image_check` accepts the image and found these blocks right. -/
def Accepts (c : CheckResult) : Prop :=
  ∃ bound n, v2ImageCheck machine img signature frame bound n = some c ∧ c.ret = 0

/-- If the image is accepted and every device can be opened, burning it ends, writes the
blocks that were found right, each once and in their order, and reads only the image. -/
def BurnFollows : Prop :=
  ∀ c, Accepts machine img signature frame c →
    ∃ bound n r, v2BurnImage machine img (fun _ => true) bound n = some r ∧ r.ret = 0 ∧
      r.writes = c.verified.map ImgBlock.write ∧ ∀ s ∈ r.reads, s.Inside img.size

/-- A block that can be burnt: its device name ends in its field or right behind it, and
its payload lies in the image. -/
structure Burnable (i : ℤ) : Prop where
  name : ∃ k : ℕ, k ≤ 32 ∧ img.mem (i + 12 + k) = 0
  fits : i + sizeofImgblock + (blockAt machine img i).size.toNat ≤ img.size

variable {machine img signature frame} {i : ℤ}

variable {bound n : ℕ} {t : BurnState} {s : CheckState} {c : CheckResult}

theorem burnRound_next {len : ℕ} (ht : t.offset < img.size)
    (hlen : strlen img.mem bound (t.offset + 12) = some len) :
    burnRound machine img (fun _ => true) bound t = some (.inl
      { offset := advance t.offset (blockAt machine img t.offset)
        opened := t.opened + 1
        reads := t.reads ++ [⟨t.offset + 4, 8⟩, ⟨t.offset + 12, len + 1⟩] ++
          [⟨t.offset + 60, (blockAt machine img t.offset).size.toNat⟩]
        writes := t.writes ++ [⟨bytes img.mem (t.offset + 12) len,
          (blockAt machine img t.offset).offset, (blockAt machine img t.offset).payload⟩] }) := by
  simp only [burnRound, ht, if_true, hlen]

theorem burnRound_end (ht : ¬ t.offset < img.size) :
    burnRound machine img (fun _ => true) bound t = some (.inr ⟨0, t.reads, t.writes⟩) := by
  simp only [burnRound, ht, if_false]

theorem burnRound_name {o : BurnState ⊕ BurnResult} (ht : t.offset < img.size)
    (h : burnRound machine img (fun _ => true) bound t = some o) :
    ∃ len, strlen img.mem bound (t.offset + 12) = some len := by
  simp only [burnRound, ht, if_true] at h
  cases hlen : strlen img.mem bound (t.offset + 12) with
  | none => simp [hlen] at h
  | some len => exact ⟨len, rfl⟩

theorem checkRound_of_accepting (hs : s.offset < img.size) (hc : c.ret = 0)
    (h : Loop.run (checkRound machine img bound) (n + 1) s = some c) :
    ∃ len, strlen img.mem bound (s.offset + 12) = some len ∧ Tested machine img s.offset ∧
      (blockAt machine img s.offset).computed machine =
        (blockAt machine img s.offset).digest := by
  obtain ⟨len, hlen, -⟩ := round_of_run hs h
  refine ⟨len, hlen, ?_⟩
  by_contra hf
  rw [Loop.run_done (checkRound_fails hs hlen hf)] at h
  obtain rfl := Option.some.inj h
  exact absurd hc (by simp)

/-- The burn is where the check was, and has written what the check had found right. -/
structure InStep (machine : Machine) (img : Image) (s : CheckState) (t : BurnState) : Prop where
  offset : t.offset = s.offset
  walk : Walk machine img s.offset
  writes : t.writes = s.verified.map ImgBlock.write
  reads : ∀ r ∈ t.reads, r.Inside img.size

/-- A round of the check and one of the burning keep together. -/
theorem InStep.next {s' : CheckState} (h : InStep machine img s t)
    (hb : s.offset < img.size → Burnable machine img s.offset)
    (hround : checkRound machine img bound s = some (.inl s')) :
    ∃ t', burnRound machine img (fun _ => true) 33 t = some (.inl t') ∧
      InStep machine img s' t' := by
  obtain ⟨offset, opened, reads, writes⟩ := t
  obtain rfl : offset = s.offset := h.offset
  have hlow := h.walk.bounds.1
  obtain @⟨_, hlt, -, htested, hdigest⟩ := checkRound_cases hround
  obtain ⟨⟨k, hk, hz⟩, hfits⟩ := hb hlt
  obtain ⟨m, hm, hname⟩ := strlen_of_zero hz (show k < 33 by omega)
  refine ⟨_, burnRound_next hlt hname, rfl, ?_, ?_, ?_⟩
  · change Walk machine img (advance s.offset (blockAt machine img s.offset))
    rw [advance_eq (by omega) hfits]
    exact h.walk.next ⟨htested.1, hfits, hdigest⟩
  · rw [map_append, ← h.writes, bytes_strlen hname (show m ≤ 32 by omega)]
    rfl
  · simp only [sizeofImgblock] at hfits
    simp only [forall_mem_append, forall_mem_cons, not_mem_nil, false_implies,
      implies_true, and_true, Span.Inside]
    exact ⟨⟨h.reads, ⟨by omega, by push_cast; omega⟩, by omega, by push_cast; omega⟩, by omega,
      by omega⟩

/-- Where the check ends well, the burning does. -/
theorem InStep.done (h : InStep machine img s t) (hc : c.ret = 0)
    (hround : checkRound machine img bound s = some (.inr c)) :
    ∃ r, burnRound machine img (fun _ => true) 33 t = some (.inr r) ∧ r.ret = 0 ∧
      r.writes = c.verified.map ImgBlock.write ∧ ∀ x ∈ r.reads, x.Inside img.size := by
  cases checkRound_cases hround with
  | fails lt name => exact absurd hc (by simp)
  | done ge =>
    have heq : s.offset = img.size := by
      have := h.walk.bounds.2
      omega
    refine ⟨_, burnRound_end (h.offset ▸ ge), rfl, ?_, h.reads⟩
    simpa [checkEnd, heq] using h.writes

theorem Accepts.check (h : Accepts machine img signature frame c) :
    c.ret = 0 ∧ ∃ bound n, v2CheckImageBlock machine img bound n = some c := by
  obtain ⟨bound, n, hc, h0⟩ := h
  refine ⟨h0, bound, n, ?_⟩
  simp only [v2ImageCheck] at hc
  split at hc
  · exact hc
  · obtain rfl := Option.some.inj hc
    exact absurd h0 (by decide)

theorem burnFollows_of_burnable (h : ∀ c, Accepts machine img signature frame c →
      ∀ i, Walk machine img i → i < img.size → Burnable machine img i) :
    BurnFollows machine img signature frame := by
  intro c hacc
  obtain ⟨hc, bound, n, hrun⟩ := hacc.check
  have hfirst : InStep machine img .first .first :=
    ⟨rfl, .start, rfl, by simp [BurnState.first]⟩
  obtain ⟨r, hburn, hpost⟩ := Loop.run_simulated (R := InStep machine img)
    (Q := fun c r => r.ret = 0 ∧ r.writes = c.verified.map ImgBlock.write ∧
      ∀ x ∈ r.reads, x.Inside img.size)
    (fun s s' t hst hround => hst.next (h c hacc s.offset hst.walk) hround)
    (fun s t hst hround => hst.done hc hround) hrun hfirst
  exact ⟨33, n, r, hburn, hpost⟩

theorem run_verified_grows (h : Loop.run (checkRound machine img bound) n s = some c) :
    s.verified <+: c.verified := by
  refine Loop.run_grows (R := List.IsPrefix) (fun _ => prefix_rfl)
    (fun _ _ _ => List.IsPrefix.trans) ?_ h
  intro t o hround
  cases checkRound_cases hround with
  | passes lt name tested digest => exact prefix_append _ _
  | fails lt name => exact prefix_rfl
  | done ge =>
    simp only [Sum.elim_inr, checkEnd]
    split <;> exact prefix_rfl

theorem burnRound_grows {o : BurnState ⊕ BurnResult}
    (h : burnRound machine img (fun _ => true) bound t = some o) :
    t.writes <+: o.elim BurnState.writes BurnResult.writes ∧
      t.reads ⊆ o.elim BurnState.reads BurnResult.reads := by
  by_cases ht : t.offset < img.size
  · obtain ⟨len, hlen⟩ := burnRound_name ht h
    rw [burnRound_next ht hlen] at h
    obtain rfl := Option.some.inj h
    refine ⟨prefix_append _ _, ?_⟩
    rw [Sum.elim_inl, append_assoc]
    exact subset_append_left _ _
  · rw [burnRound_end ht] at h
    obtain rfl := Option.some.inj h
    exact ⟨prefix_rfl, List.Subset.refl _⟩

theorem run_burn_grows {r : BurnResult}
    (h : Loop.run (burnRound machine img (fun _ => true) bound) n t = some r) :
    t.writes <+: r.writes ∧ t.reads ⊆ r.reads := by
  constructor
  · exact Loop.run_grows (R := List.IsPrefix) (fun _ => prefix_rfl)
      (fun _ _ _ => List.IsPrefix.trans) (fun _ _ hround => (burnRound_grows hround).1) h
  · exact Loop.run_grows (R := fun a b : List Span => a ⊆ b) List.Subset.refl
      (fun _ _ _ => List.Subset.trans) (fun _ _ hround => (burnRound_grows hround).2) h

/-- The check and the burn come to every position that valid blocks lead to, after as many
blocks. -/
theorem Walk.reached_by_both {b₁ n₁ b₂ n₂ : ℕ} {r : BurnResult} (hw : Walk machine img i)
    (hcheck : v2CheckImageBlock machine img b₁ n₁ = some c)
    (hburn : v2BurnImage machine img (fun _ => true) b₂ n₂ = some r) :
    ∃ s t, Loop.Reaches (checkRound machine img b₁) .first s ∧
      Loop.Reaches (burnRound machine img (fun _ => true) b₂) .first t ∧
      s.offset = i ∧ t.offset = i ∧ s.verified.length = t.writes.length := by
  induction hw with
  | start => exact ⟨.first, .first, .refl, .refl, rfl, rfl, rfl⟩
  | next walk valid ih =>
    obtain ⟨s, t, hs, ht, rfl, hoff, hlength⟩ := ih
    have hlow := walk.bounds.1
    obtain ⟨m, hm⟩ := hs.run hcheck
    obtain ⟨len, hlen, -⟩ := round_of_run valid.lt hm
    have hround := checkRound_passes valid.lt hlen (valid.tested (by omega)) valid.digest
    have hadv := advance_eq (by omega) valid.inside
    obtain ⟨k, hk⟩ := ht.run hburn
    have htlt : t.offset < img.size := hoff ▸ valid.lt
    obtain ⟨len', hlen'⟩ : ∃ len', strlen img.mem b₂ (t.offset + 12) = some len' := by
      obtain ⟨t', hbr, -⟩ | hbr := Loop.run_succ_cases hk
      all_goals exact burnRound_name htlt hbr
    refine ⟨_, _, hs.tail hround, ht.tail (burnRound_next htlt hlen'), hadv, ?_, ?_⟩
    · rw [hoff]
      exact hadv
    · simp [hlength]

theorem next_eq_of_prefix {α β : Type*} {f : α → β} {xs l : List α} {ys : List β} {a : α} {b : β}
    (hlen : xs.length = ys.length) (hx : xs ++ [a] <+: l) (hy : ys ++ [b] <+: l.map f) :
    b = f a := by
  obtain ⟨t, rfl⟩ := hx
  obtain ⟨u, hu⟩ := hy
  simp only [append_assoc, singleton_append, map_append, map_cons] at hu
  have htail := (append_inj hu (by simp [hlen])).2
  exact (cons.inj htail).1

theorem burnable_of_burnFollows (h : BurnFollows machine img signature frame)
    (hacc : Accepts machine img signature frame c) (hw : Walk machine img i) (hi : i < img.size) :
    Burnable machine img i := by
  obtain ⟨b₂, n₂, r, hburn, -, hwrites, hreads⟩ := h c hacc
  obtain ⟨hc, b₁, n₁, hcheck⟩ := hacc.check
  obtain ⟨s, t, hs, ht, rfl, hoff, hlength⟩ := hw.reached_by_both hcheck hburn
  obtain ⟨m, hm⟩ := hs.run hcheck
  obtain ⟨len, hlen, htest, hd⟩ := checkRound_of_accepting hi hc hm
  rw [Loop.run_next (checkRound_passes hi hlen htest hd)] at hm
  obtain ⟨k, hk⟩ := ht.run hburn
  obtain ⟨offset, opened, reads, writes⟩ := t
  obtain rfl : offset = s.offset := hoff
  obtain ⟨len', hlen'⟩ : ∃ len', strlen img.mem b₂ (s.offset + 12) = some len' := by
    obtain ⟨t', hbr, -⟩ | hbr := Loop.run_succ_cases hk
    all_goals exact burnRound_name hi hbr
  rw [Loop.run_next (burnRound_next hi hlen')] at hk
  obtain ⟨hwgrow, hrgrow⟩ := run_burn_grows hk
  -- the write of this round is the one of the block that was found right in the same round
  have hsame := next_eq_of_prefix hlength (run_verified_grows hm) (hwrites ▸ hwgrow)
  have hname : bytes img.mem (s.offset + 12) len' =
      (bytes img.mem (s.offset + 12) 32).takeWhile fun b => b ≠ 0 :=
    congrArg Write.devname hsame
  have hle : len' ≤ 32 := by
    calc len' = (bytes img.mem (s.offset + 12) len').length := (length_bytes _ _ _).symm
      _ = ((bytes img.mem (s.offset + 12) 32).takeWhile fun b => b ≠ 0).length := by rw [hname]
      _ ≤ (bytes img.mem (s.offset + 12) 32).length := (takeWhile_sublist _).length_le
      _ = 32 := length_bytes _ _ _
  have hpayload := hreads _ (hrgrow (mem_append_right _ (mem_singleton_self _)))
  exact ⟨⟨len', hle, strlen_end hlen'⟩, hpayload.2⟩

/-- Burning an accepted image writes exactly the blocks that the check found right and
reads only the image, precisely if every block that valid blocks lead to can be burnt. -/
theorem v2BurnImage_follows_iff (machine : Machine) (img : Image) (signature : List UInt8)
    (frame : ℤ → UInt8) : BurnFollows machine img signature frame ↔
      ∀ c, Accepts machine img signature frame c →
        ∀ i, Walk machine img i → i < img.size → Burnable machine img i :=
  ⟨fun h _ hacc _ hw hi => burnable_of_burnFollows h hacc hw hi, burnFollows_of_burnable⟩

/-- An image with one empty block whose device name fills its field. -/
def longName : Image where
  mem i := if 0 ≤ i then (([119, 98, 114] ++ List.replicate 29 0 ++ [0x20, 0x02, 0x04, 0x20] ++
    [0x20, 0x02, 0x04, 0x20] ++ List.replicate 8 0 ++ List.replicate 32 97 ++
    List.replicate 16 0x11)[i.toNat]?).getD 0 else 0
  size := 96
  header_lt := by decide
  size_lt := by decide

/-- The name is not terminated, and the copy of it runs on. -/
theorem longName_not_burnFollows :
    ¬ BurnFollows constantDigest longName [119, 98, 114] fun _ => 0 := by
  intro h
  have hret : (v2ImageCheck constantDigest longName [119, 98, 114] (fun _ => 0) 64 2).map
      CheckResult.ret = some 0 := by decide +kernel
  obtain ⟨c, hc, h0⟩ := Option.map_eq_some_iff.mp hret
  obtain ⟨k, hk, hz⟩ := (burnable_of_burnFollows h ⟨64, 2, hc, h0⟩ .start (by decide)).name
  have hnz : ∀ k : Fin 33, longName.mem (sizeofImghdr2 + 12 + k) ≠ 0 := by decide +kernel
  exact hnz ⟨k, by omega⟩ hz

end Wbr1310.Httpd
