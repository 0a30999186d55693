import Wbr1310.Comlib.MemHelperRun

/-!
# The blocks that the pool hands out

A block is live while it is on a used list. An allocation makes one block live that was
not, and leaves the bytes of the other ones alone: what it writes are headers, and no
header overlaps the usable bytes of a block. From this follow the contracts of `mh_malloc`,
`mh_realloc` and `mh_calloc`, with the conditions under which the last two keep theirs.
-/

namespace Wbr1310.Comlib.MemHelper

open Lib Links List Option Nat

def Live (st : Pool) (a : Nat) : Prop :=
  ∃ s xs, st.links.Ring (.head (.used s)) xs ∧ .hdr a ∈ xs

/-- The usable bytes of a block are left alone: none of them is written, and no header that is
written overlaps them. -/
structure LeftAlone (st st' : Pool) (b : Nat × SizeClass) : Prop where
  mem : ∀ x, memptr b.1 ≤ x → x < memptr b.1 + 2 ^ b.2.val → st'.mem x = st.mem x
  headers : ∀ x, ¬ SameHeader st' st x →
    x + hdrSize ≤ memptr b.1 ∨ memptr b.1 + 2 ^ b.2.val ≤ x

/-- A class that `mh_malloc` tries is large enough, and has a free block or can be grown. -/
def Serves (c : Call) (st : Pool) (size : Nat) : Prop :=
  ∃ s : SizeClass, 3 ≤ s.val ∧ size ≤ 2 ^ s.val ∧
    (dlistEmpty st.links (.head (.free s)) = false ∨ CanGrow c.malloc s)

instance (c : Call) (st : Pool) (size : Nat) : Decidable (Serves c st size) :=
  inferInstanceAs (Decidable (∃ _ : SizeClass, _))

theorem mem_mallocClasses : ∀ s : SizeClass, s ∈ mallocClasses ↔ 3 ≤ s.val := by
  decide

section Blocks

variable {st st' : Pool} {ls ls' : ListId → List Node} {a : Nat} {s : SizeClass}

theorem Lists.live_iff (h : Lists st ls) : Live st a ↔ ∃ s, .hdr a ∈ ls (.used s) := by
  constructor
  · rintro ⟨s, xs, hr, ha⟩
    rw [hr.unique (h.family.ring (.used s))] at ha
    exact ⟨s, ha⟩
  · rintro ⟨s, ha⟩
    exact ⟨s, _, h.family.ring (.used s), ha⟩

theorem Lists.live_used (h : Lists st ls) (hc : (a, s) ∈ carved st) (hl : Live st a) :
    .hdr a ∈ ls (.used s) := by
  obtain ⟨t, ht⟩ := h.live_iff.mp hl
  obtain hf | hu := h.carved_mem hc
  · cases h.unique hf ht
  · exact hu

theorem Lists.header_apart (h : Lists st ls) (hc : (a, s) ∈ carved st) {x : Nat}
    (hx : Header st x) : x + hdrSize ≤ memptr a ∨ memptr a + 2 ^ s.val ≤ x := by
  have hend : memptr a + 2 ^ s.val = a + blockSize s := Nat.add_assoc ..
  have hptr : memptr a = a + hdrSize := rfl
  obtain ⟨t, ht⟩ | ⟨b, hb, rfl⟩ := hx
  · have hhdr : hdrSize ≤ blockSize t := Nat.le_add_right ..
    have := h.blocks_apart hc ht
    omega
  · have := h.super_apart hc hb
    omega

theorem Framed.leftAlone (hfr : Framed st st') (h : Lists st' ls') {b : Nat × SizeClass}
    (hb : b ∈ carved st') : LeftAlone st st' b := by
  constructor
  · intro x _ _
    rw [hfr.mem]
  · intro x hx
    refine h.header_apart hb ?_
    by_contra hno
    exact hx (hfr.headers x hno)

theorem Granted.not_serves {c : Call} {size : Nat} (h : Lists st ls)
    (hg : Granted c size mallocClasses st ls none st' ls') : ¬ Serves c st size := by
  rintro ⟨s, hs, hsize, hroom⟩
  cases hg with
  | null hstuck =>
    obtain ⟨hempty, hgrow⟩ := hstuck s ((mem_mallocClasses s).mpr hs) hsize
    have hring := (dlistEmpty_iff (h.family.ring (.free s))).mpr hempty
    obtain hne | hcan := hroom
    · exact absurd hring (by rw [hne]; decide)
    · exact hgrow hcan

theorem Granted.serves {c : Call} {size p : Nat} (h : Lists st ls)
    (hg : Granted c size mallocClasses st ls (some p) st' ls') : Serves c st size := by
  cases hg with
  | block a s _ _ htried hfits hob =>
    refine ⟨s, (mem_mallocClasses s).mp htried, hfits, ?_⟩
    cases hob with
    | block _ _ _ hroom _ _ _ _ _ _ =>
      refine hroom.imp_left ?_
      intro hne
      rw [← Bool.not_eq_true, dlistEmpty_iff (h.family.ring (.free s))]
      exact hne

/-- What an allocation hands out, and what it leaves alone. -/
structure HandedOut (size : Nat) (st : Pool) (a : Nat) (s : SizeClass) (st' : Pool) : Prop where
  carved_mem : (a, s) ∈ carved st'
  fits : size ≤ 2 ^ s.val
  unused : ¬ Live st a
  live : Live st' a
  framed : Framed st st'
  kept : ∀ x, Live st x → Live st' x

theorem Granted.handedOut {c : Call} {size p : Nat} (h : Lists st ls) (h' : Lists st' ls')
    (hg : Granted c size mallocClasses st ls (some p) st' ls') :
    ∃ a s, p = memptr a ∧ HandedOut size st a s st' := by
  cases hg with
  | block a s st₁ _ htried hfits hob =>
    refine ⟨a, s, rfl, ?_⟩
    cases hob with
    | block _ _ _ _ htaken hfr _ hunused hused hothers =>
      have hc : (a, s) ∈ carved st₁ := htaken.carved_mem
      have hnew : .hdr a ∈ ls' (.used s) := hused ▸ mem_cons_self
      refine ⟨hc, hfits, ?_, h'.live_iff.mpr ⟨s, hnew⟩,
        hfr.trans (.track (.inl ⟨s, hc⟩) _ _ _), ?_⟩
      · intro hl
        obtain ⟨t, ht⟩ := h.live_iff.mp hl
        exact hunused t ht
      · intro x hl
        obtain ⟨t, ht⟩ := h.live_iff.mp hl
        refine h'.live_iff.mpr ⟨t, ?_⟩
        by_cases hts : t = s
        · subst hts
          exact hused ▸ mem_cons_of_mem _ ht
        · exact hothers t hts ▸ ht

end Blocks

/-- The contract of `mh_malloc` for a call that returned `r`. -/
structure MallocOk (c : Call) (size : Nat) (st : Pool) (r : Option Nat) (st' : Pool) : Prop where
  zero : size = 0 → r = none
  null : r = none → size = 0 ∨ ¬ Serves c st size
  block : ∀ p, r = some p → ∃ a s, p = memptr a ∧ (a, s) ∈ carved st' ∧ ¬ Live st a ∧
    Live st' a ∧ size ≤ 2 ^ s.val ∧
    ∀ b ∈ carved st', b.1 ≠ a → p + 2 ^ s.val ≤ b.1 ∨ b.1 + blockSize b.2 ≤ p
  live : ∀ b ∈ carved st, Live st b.1 → Live st' b.1 ∧ LeftAlone st st' b

/-- In every pool that calls and client writes lead to, `mh_malloc` returns and keeps its
contract. -/
theorem mhMalloc_ok {st : Pool} {returned : List Nat} {hist : List Pool}
    (h : Reach st returned hist) (c : Call) (hf : Fresh c.malloc st) (size : Nat) :
    ∃ r st', mhMalloc c size st = some (r, st') ∧ MallocOk c size st r st' := by
  obtain ⟨ls, hl⟩ := h.good.lists
  have hsame : ∀ b ∈ carved st, Live st b.1 → Live st b.1 ∧ LeftAlone st st b :=
    fun b hb hlive => ⟨hlive, (Framed.refl st).leftAlone hl hb⟩
  by_cases hsize : 0 < size
  · obtain ⟨r, st', ls', he, hl', hg⟩ := mhMalloc_granted c hsize hl hf
    refine ⟨r, st', he, ?_⟩
    cases r with
    | none =>
      refine ⟨fun _ => rfl, fun _ => .inr (hg.not_serves hl), (fun p e => nomatch e), ?_⟩
      cases hg with
      | null _ => exact hsame
    | some p =>
      obtain ⟨a, s, rfl, hout⟩ := hg.handedOut hl hl'
      refine ⟨fun e => absurd hsize (e ▸ Nat.lt_irrefl 0), (fun e => by cases e), ?_, ?_⟩
      · intro q e
        obtain rfl := some.inj e
        refine ⟨a, s, rfl, hout.carved_mem, hout.unused, hout.live, hout.fits, ?_⟩
        intro b hb hne
        have hend : memptr a + 2 ^ s.val = a + blockSize s := Nat.add_assoc ..
        have hptr : memptr a = a + hdrSize := rfl
        have hapart := hl'.blocks_apart hout.carved_mem hb
        omega
      · intro b hb hlive
        exact ⟨hout.kept b.1 hlive,
          hout.framed.leftAlone hl' (carved_mono hout.framed.supers hb)⟩
  · refine ⟨none, st, ?_, fun _ => rfl, fun _ => .inl (by omega), (fun p e => nomatch e), hsame⟩
    rw [mhMalloc, if_neg hsize]

def noMemory : Call := ⟨fun _ => none, true, [], 0, 10⟩

theorem fresh_noMemory (st : Pool) : Fresh noMemory.malloc st := fun _ _ e => nomatch e

/-- After an allocation of five bytes, the next one gets the next block of the super block. -/
theorem mhMalloc_ok_second :
    ∃ st st', Reach st [1040] [st, mhInitAll .bss] ∧
      mhMalloc noMemory 5 st = some (some 1068, st') ∧ MallocOk noMemory 5 st (some 1068) st' := by
  obtain ⟨st, hreach, -, hsecond⟩ := reach_malloc
    (p := fun st => (mhMalloc noMemory 5 st).map Prod.fst == some (some 1068)) (by decide)
  obtain ⟨r, st', he, hok⟩ := mhMalloc_ok hreach noMemory (fresh_noMemory st) 5
  rw [he] at hsecond
  obtain rfl := some.inj (eq_of_beq hsecond)
  exact ⟨st, st', hreach, he, hok⟩

/-- A call while there is memory for no more than the smallest super block. -/
def lowMemory : Call := ⟨fun n => if n ≤ 212 then some 1000 else none, true, [], 0, 10⟩

/-- The class of four bytes can be grown, but `mh_malloc` does not try it and returns null. -/
theorem smallest_class_not_tried :
    Reach (mhInitAll .bss) [] [mhInitAll .bss] ∧ Fresh lowMemory.malloc (mhInitAll .bss) ∧
      (mhMalloc lowMemory 4 (mhInitAll .bss)).map Prod.fst = some none ∧
      4 ≤ 2 ^ (2 : SizeClass).val ∧ CanGrow lowMemory.malloc 2 :=
  ⟨.init .bss, fresh_init _ _, by decide, by decide, by decide⟩

theorem length_load (st : Pool) (src n : Nat) : (load st src n).length = n := by
  rw [load, length_map, length_range]

theorem load_store (st : Pool) (dst : Nat) (src : List UInt8) :
    load (store st dst src) dst src.length = src := by
  apply ext_getElem (length_load _ _ _)
  intro k _ hk
  have hin : dst ≤ dst + k ∧ dst + k < dst + src.length := by omega
  simp only [load, getElem_map, getElem_range, store, if_pos hin]
  rw [Nat.add_sub_cancel_left, getD_eq_getElem?_getD, getElem?_eq_getElem hk,
    getD_some]

theorem load_of_mem_eq {st st' : Pool} (h : st'.mem = st.mem) (src n : Nat) :
    load st' src n = load st src n := by
  rw [load, load, h]

/-- A pointer to a live block with room for `n` bytes. -/
def Holds (st : Pool) (p n : Nat) : Prop :=
  ∃ a s, p = memptr a ∧ (a, s) ∈ carved st ∧ Live st a ∧ n ≤ 2 ^ s.val

/-- The contract of `mh_realloc` of a block for a call that returned `r`. -/
structure ReallocOk (b : Nat × SizeClass) (size : Nat) (st : Pool) (r : Option Nat)
    (st' : Pool) : Prop where
  null : r = none → Live st' b.1 ∧
    load st' (memptr b.1) (2 ^ b.2.val) = load st (memptr b.1) (2 ^ b.2.val)
  block : ∀ q, r = some q → Holds st' q size ∧
    load st' q (min (2 ^ b.2.val) size) = load st (memptr b.1) (min (2 ^ b.2.val) size)

/-- The contract of `mh_calloc` for a call that returned `r`. -/
def CallocOk (nmemb size : Nat) (r : Option Nat) (st' : Pool) : Prop :=
  ∀ q, r = some q → Holds st' q (nmemb * size) ∧
    load st' q (nmemb * size) = List.replicate (nmemb * size) 0

section Contracts

variable {st st' : Pool} {ls : ListId → List Node} {a : Nat} {s : SizeClass} {c : Call}

theorem Lists.not_live_of_given (h : Lists st' (movedLists ls (.used s) (.free s) (.hdr a)))
    (hc : (a, s) ∈ carved st') : ¬ Live st' a := by
  intro hlive
  have hused := h.live_used hc hlive
  have hfree : Node.hdr a ∈ movedLists ls (.used s) (.free s) (.hdr a) (.free s) :=
    movedLists_target ▸ mem_cons_self
  cases h.unique hused hfree

theorem Lists.live_of_given {a' : Nat} {s' : SizeClass}
    (h : Lists st' (movedLists ls (.used s) (.free s) (.hdr a))) (hne : s' ≠ s)
    (ha : .hdr a' ∈ ls (.used s')) : Live st' a' := by
  refine h.live_iff.mpr ⟨s', ?_⟩
  rwa [movedLists_of_ne (by simpa using hne) (by simp)]

/-- The branch of `mh_realloc` that moves the block: its contract holds just if the request can be
served, because the old block is given back in any case. -/
theorem mhRealloc_grow (h : Lists st ls) (hf : Fresh c.malloc st)
    (hfuel : ∀ s, st.mpoolUsed s < c.fuel) (hc : (a, s) ∈ carved st) (hlive : Live st a)
    {size : Nat} (hlt : 2 ^ s.val < size) :
    ∃ r st', mhRealloc c (some (memptr a)) size st = some (r, st') ∧
      (ReallocOk (a, s) size st r st' ↔ Serves c st size) := by
  obtain ⟨r, st₁, ls₁, he, hl₁, hg⟩ := mhMalloc_granted c (zero_lt_of_lt hlt) h hf
  have hroom : (ls₁ (.used s)).length < c.fuel := by
    rw [← hl₁.used_len s, hg.malloced.used_of_lt hlt]
    exact hfuel s
  simp only [mhRealloc, memhdr_memptr, h.flags_eq a s hc, memblkCheck_flags, memblkSize_flags,
    if_true, if_pos hlt, he, bind_some]
  cases r with
  | none =>
    have hnot := hg.not_serves h
    cases hg with
    | null _ =>
      obtain ⟨st₂, hfree, hl₂, hgiven⟩ := mhFree_used h (h.live_used hc hlive) hroom
      refine ⟨none, st₂, by rw [hfree]; rfl, iff_of_false ?_ hnot⟩
      intro hok
      have hc₂ : (a, s) ∈ carved st₂ :=
        carved_mono (hgiven.supers ▸ List.Subset.refl _) hc
      exact hl₂.not_live_of_given hc₂ (hok.null rfl).1
  | some q =>
    have hserves := hg.serves h
    obtain ⟨a', s', rfl, hout⟩ := hg.handedOut h hl₁
    have hne : s' ≠ s := by
      intro e
      have := hout.fits
      rw [e] at this
      omega
    have hold : .hdr a ∈ ls₁ (.used s) :=
      hl₁.live_used (carved_mono hout.framed.supers hc) (hout.kept a hlive)
    have hnew : .hdr a' ∈ ls₁ (.used s') := hl₁.live_used hout.carved_mem hout.live
    have hl₁' : Lists (store st₁ (memptr a') (load st₁ (memptr a) (2 ^ s.val))) ls₁ :=
      hl₁.track _ _ _ _
    obtain ⟨st₂, hfree, hl₂, hgiven⟩ := mhFree_used hl₁' hold hroom
    refine ⟨some (memptr a'), st₂, by rw [hfree]; rfl, iff_of_true ?_ hserves⟩
    refine ⟨(fun e => by cases e), ?_⟩
    intro q e
    obtain rfl := some.inj e
    have hc₂ : (a', s') ∈ carved st₂ :=
      carved_mono (hgiven.supers ▸ List.Subset.refl _) hout.carved_mem
    refine ⟨⟨a', s', rfl, hc₂, hl₂.live_of_given hne hnew, hout.fits⟩, ?_⟩
    have hcopy := load_store st₁ (memptr a') (load st₁ (memptr a) (2 ^ s.val))
    rw [length_load] at hcopy
    rw [min_eq_left (le_of_lt hlt), load_of_mem_eq hgiven.mem, hcopy,
      load_of_mem_eq hout.framed.mem]

theorem mhRealloc_iff (h : Lists st ls) (hf : Fresh c.malloc st)
    (hfuel : ∀ s, st.mpoolUsed s < c.fuel) (hc : (a, s) ∈ carved st) (hlive : Live st a)
    (size : Nat) :
    ∃ r st', mhRealloc c (some (memptr a)) size st = some (r, st') ∧
      (ReallocOk (a, s) size st r st' ↔ size ≤ 2 ^ s.val ∨ Serves c st size) := by
  by_cases hlt : 2 ^ s.val < size
  · obtain ⟨r, st', he, hiff⟩ := mhRealloc_grow h hf hfuel hc hlive hlt
    refine ⟨r, st', he, hiff.trans ?_⟩
    exact ⟨.inr, fun hor => hor.resolve_left (not_le.mpr hlt)⟩
  · refine ⟨some (memptr a), st, ?_, iff_of_true ?_ (.inl (not_lt.mp hlt))⟩
    · simp only [mhRealloc, memhdr_memptr, h.flags_eq a s hc, memblkCheck_flags,
        memblkSize_flags, if_true, if_neg hlt]
    · refine ⟨(fun e => by cases e), ?_⟩
      intro q e
      obtain rfl := some.inj e
      exact ⟨⟨a, s, rfl, hc, hlive, not_lt.mp hlt⟩, rfl⟩

/-- `mh_calloc`: a product that does not fit is too large for every block. -/
theorem mhCalloc_iff (h : Lists st ls) (hf : Fresh c.malloc st) (nmemb size : Nat) :
    ∃ r st', mhCalloc c nmemb size st = some (r, st') ∧
      (CallocOk nmemb size r st' ↔ nmemb * size < 2 ^ 32 ∨
        ¬ (0 < nmemb * size % 2 ^ 32 ∧ Serves c st (nmemb * size % 2 ^ 32))) := by
  by_cases hpos : 0 < nmemb * size % 2 ^ 32
  · obtain ⟨r, st₁, ls₁, he, hl₁, hg⟩ := mhMalloc_granted c hpos h hf
    cases r with
    | none =>
      refine ⟨none, st₁, by rw [mhCalloc, he]; rfl, iff_of_true (fun q e => nomatch e) ?_⟩
      exact .inr fun hs => hg.not_serves h hs.2
    | some q =>
      have hserves := hg.serves h
      obtain ⟨a', s', rfl, hout⟩ := hg.handedOut h hl₁
      refine ⟨some (memptr a'), store st₁ (memptr a')
        (replicate (nmemb * size % 2 ^ 32) 0), by rw [mhCalloc, he]; rfl, ?_⟩
      constructor
      · intro hok
        obtain ⟨⟨b, t, _, _, _, hfits⟩, _⟩ := hok _ rfl
        have hlarge : 2 ^ t.val ≤ 2 ^ 21 := Nat.pow_le_pow_right (by decide)
            (Nat.le_of_lt_succ t.isLt)
        exact .inl (by omega)
      · rintro (hsmall | hno)
        · intro q e
          obtain rfl := some.inj e
          rw [mod_eq_of_lt hsmall] at hout ⊢
          refine ⟨⟨a', s', rfl, hout.carved_mem, hout.live, hout.fits⟩, ?_⟩
          have hzero := load_store st₁ (memptr a') (replicate (nmemb * size) 0)
          rwa [length_replicate] at hzero
        · exact absurd ⟨hpos, hserves⟩ hno
  · refine ⟨none, st, ?_, iff_of_true (fun q e => nomatch e) (.inr fun hs => hpos hs.1)⟩
    rw [mhCalloc, mhMalloc, if_neg hpos]
    rfl

end Contracts

/-- In every pool that calls and client writes lead to, `mh_realloc` of a live block and
`mh_calloc` return. The first keeps its contract just if the block is not moved or the request can
be served, the second just if the product fits or no block is returned. -/
theorem realloc_calloc_ok_iff {st : Pool} {returned : List Nat} {hist : List Pool}
    (h : Reach st returned hist) (c : Call) (hf : Fresh c.malloc st)
    (hfuel : ∀ s, st.mpoolUsed s < c.fuel) {a : Nat} {s : SizeClass} (hc : (a, s) ∈ carved st)
    (hlive : Live st a) (newSize nmemb size : Nat) :
    (∃ r st', mhRealloc c (some (memptr a)) newSize st = some (r, st') ∧
      (ReallocOk (a, s) newSize st r st' ↔ newSize ≤ 2 ^ s.val ∨ Serves c st newSize)) ∧
    ∃ r st', mhCalloc c nmemb size st = some (r, st') ∧
      (CallocOk nmemb size r st' ↔ nmemb * size < 2 ^ 32 ∨
        ¬ (0 < nmemb * size % 2 ^ 32 ∧ Serves c st (nmemb * size % 2 ^ 32))) := by
  obtain ⟨ls, hl⟩ := h.good.lists
  exact ⟨mhRealloc_iff hl hf hfuel hc hlive newSize, mhCalloc_iff hl hf nmemb size⟩

theorem malloc_five {p : Pool → Bool} (hp : afterMalloc p = some (some 1040, true)) :
    ∃ st, Reach st [1040] [st, mhInitAll .bss] ∧ (1020, 3) ∈ carved st ∧ Live st 1020 ∧
      p st = true := by
  obtain ⟨st, hreach, he, htest⟩ := reach_malloc hp
  have hblocks : st.superBlocks = [(1000, 3)] := by
    have hsup : afterMalloc (fun st => decide (st.superBlocks = [(1000, 3)])) =
        some (some 1040, true) := by decide
    rw [afterMalloc, he] at hsup
    exact of_decide_eq_true (Prod.mk.inj (some.inj hsup)).2
  have hcarved : (1020, 3) ∈ carved st := by
    rw [carved, hblocks]
    decide
  have hlive : Live st 1020 := by
    obtain ⟨r', st', ls', he', hl', hg⟩ :=
      mhMalloc_granted firstCall (by decide : 0 < 5) (mhInitAll_lists .bss) (fresh_init _ _)
    obtain ⟨rfl, rfl⟩ := Prod.mk.inj (some.inj (he.symm.trans he'))
    obtain ⟨a, s, hp, hout⟩ := hg.handedOut (mhInitAll_lists .bss) hl'
    have ha : 1020 + hdrSize = a + hdrSize := hp
    obtain rfl := Nat.add_right_cancel ha
    exact hout.live
  exact ⟨st, hreach, hcarved, hlive, htest⟩

/-- A block that was asked for first. -/
theorem realloc_calloc_ok_malloc :
    ∃ st, Reach st [1040] [st, mhInitAll .bss] ∧
      (∃ r st', mhRealloc noMemory (some 1040) 8 st = some (r, st') ∧
        ReallocOk (1020, 3) 8 st r st') ∧
      ∃ r st', mhCalloc noMemory 2 4 st = some (r, st') ∧ CallocOk 2 4 r st' := by
  obtain ⟨st, hreach, hc, hlive, hused⟩ := malloc_five
    (p := fun st => decide (∀ s, st.mpoolUsed s < 10)) (by decide)
  obtain ⟨⟨r, st₁, h₁, hiff₁⟩, r', st₂, h₂, hiff₂⟩ := realloc_calloc_ok_iff hreach noMemory
    (fresh_noMemory st) (of_decide_eq_true hused) hc hlive 8 2 4
  exact ⟨st, hreach, ⟨r, st₁, h₁, hiff₁.mpr (.inl (by decide))⟩, r', st₂, h₂,
    hiff₂.mpr (.inl (by decide))⟩

/-- Without memory for a larger block `mh_realloc` returns null, and the block is gone. A product
that is four more than `2 ^ 32` gives a block of eight bytes. -/
theorem realloc_calloc_broken :
    ∃ st, Reach st [1040] [st, mhInitAll .bss] ∧ (1020, 3) ∈ carved st ∧ Live st 1020 ∧
      Fresh noMemory.malloc st ∧
      (∃ st', mhRealloc noMemory (some 1040) 100 st = some (none, st') ∧
        ¬ ReallocOk (1020, 3) 100 st none st') ∧
      ∃ st', mhCalloc noMemory 2147483650 2 st = some (some 1068, st') ∧
        ¬ CallocOk 2147483650 2 (some 1068) st' := by
  obtain ⟨st, hreach, hc, hlive, hfacts⟩ := malloc_five
    (p := fun st => decide ((∀ s, st.mpoolUsed s < 10) ∧ ¬ Serves noMemory st 100 ∧
      Serves noMemory st 4 ∧ (mhRealloc noMemory (some 1040) 100 st).map Prod.fst = some none ∧
      (mhCalloc noMemory 2147483650 2 st).map Prod.fst = some (some 1068))) (by decide +kernel)
  obtain ⟨hused, hnot, hserves, hrealloc, hcalloc⟩ := of_decide_eq_true hfacts
  obtain ⟨ls, hl⟩ := hreach.good.lists
  refine ⟨st, hreach, hc, hlive, fresh_noMemory st, ?_, ?_⟩
  · obtain ⟨r, st', he, hiff⟩ := mhRealloc_iff hl (fresh_noMemory st) hused hc hlive 100
    rw [show memptr 1020 = 1040 from rfl] at he
    rw [he] at hrealloc
    obtain rfl := some.inj hrealloc
    refine ⟨st', he, fun hok => ?_⟩
    exact (hiff.mp hok).elim (by decide) hnot
  · obtain ⟨r, st', he, hiff⟩ := mhCalloc_iff hl (fresh_noMemory st) 2147483650 2
    rw [he] at hcalloc
    obtain rfl := some.inj hcalloc
    refine ⟨st', he, fun hok => ?_⟩
    exact (hiff.mp hok).elim (by decide) fun h => h ⟨by decide, hserves⟩

end Wbr1310.Comlib.MemHelper
