import Wbr1310.Comlib.MemHelperLists

/-!
# The pool invariant of `comlib/mem_helper.c`

Each entry point of the module is specified on the rings of the pool, and the
invariant of every run is assembled from those specifications. The recorded
maximum is exact because a call takes at most one block, and `mh_realloc` takes
it from another class than the one it gives a block back to.
-/

namespace Wbr1310.Comlib.MemHelper

open Lib Links List Function Option

/-- What an allocation of class `s` does: one more block of the class is used. -/
structure Taken (s : SizeClass) (st : Pool) (a : Nat) (st' : Pool) : Prop where
  carved_mem : (a, s) ∈ carved st'
  supers : st.superBlocks ⊆ st'.superBlocks
  used : st'.mpoolUsed = Function.update st.mpoolUsed s (st.mpoolUsed s + 1)
  maxUsed : st'.mpoolMaxUsed = Function.update st.mpoolMaxUsed s
    (max (st.mpoolMaxUsed s) (st.mpoolUsed s + 1))

section Alloc

variable {st : Pool} {ls : ListId → List Node} {s : SizeClass}

theorem takeFree_empty (h : Lists st ls) (he : ls (.free s) = []) :
    takeFree s st = some (none, st) := by
  rw [takeFree, if_pos ((dlistEmpty_iff (h.family.ring (.free s))).mpr he)]

/-- The first free block is moved to the used list of its class. -/
theorem takeFree_block (h : Lists st ls) (hs : 0 < s.val) (hne : ls (.free s) ≠ []) :
    ∃ a st', takeFree s st = some (some a, st') ∧ .hdr a ∈ ls (.free s) ∧
      Lists st' (movedLists ls (.free s) (.used s) (.hdr a)) ∧ Taken s st a st' ∧
      Framed st st' ∧ SameNames st' st := by
  obtain ⟨x, rest, hx⟩ := exists_cons_of_ne_nil hne
  have hmem : x ∈ ls (.free s) := hx ▸ mem_cons_self
  obtain ⟨a, rfl, hc⟩ := h.free_mem hs hmem
  obtain ⟨L₁, L₂, h₁, h₂, F⟩ :=
    dlistMove_family h.family (by simp : ListId.free s ≠ .used s) hmem
  have hempty : ¬ dlistEmpty st.links (.head (.free s)) = true := by
    rwa [dlistEmpty_iff (h.family.ring (.free s))]
  have hnext : st.links.next (.head (.free s)) = some (.hdr a) := by
    rw [(h.family.ring (.free s)).next_head, hx]
    rfl
  have hmax : (if st.mpoolMaxUsed s < st.mpoolUsed s + 1 then st.mpoolUsed s + 1
      else st.mpoolMaxUsed s) = max (st.mpoolMaxUsed s) (st.mpoolUsed s + 1) := by
    split <;> omega
  refine ⟨a, _, ?_, hmem, h.take hs hmem F (update st.mpoolMaxUsed s
    (max (st.mpoolMaxUsed s) (st.mpoolUsed s + 1))), ⟨hc, List.Subset.refl _, rfl, rfl⟩,
    ⟨List.Subset.refl _, rfl, ?_⟩, ⟨rfl, rfl⟩⟩
  · rw [takeFree, if_neg hempty, hnext]
    simp only [h₁, h₂, bind_some, map_some, hmax]
  · intro x hx
    exact ⟨dlistMove_sameAt h.family hmem h₁ h₂ (h.off hx), rfl, rfl, rfl⟩

/-- The class can be grown: it has blocks, and there is memory for a super block. -/
def CanGrow (malloc : Nat → Option Nat) (s : SizeClass) : Prop :=
  0 < mpoolIncrease s ∧ (malloc (requiredSize s)).isSome

instance (malloc : Nat → Option Nat) (s : SizeClass) : Decidable (CanGrow malloc s) :=
  inferInstanceAs (Decidable (_ ∧ _))

variable {malloc : Nat → Option Nat}

theorem allocMemblk_stuck (hg : ¬ CanGrow malloc s) :
    allocMemblk malloc s st = some st := by
  rw [allocMemblk]
  split
  next hi =>
    have hnone : malloc (requiredSize s) = none :=
      not_isSome_iff_eq_none.mp fun hm => hg ⟨hi, hm⟩
    rw [hnone]
  next => rfl

/-- A class that can grow gets a block with free entries. -/
theorem allocMemblk_spec (h : Lists st ls) (hf : Fresh malloc st) (hs : 0 < s.val)
    (hg : CanGrow malloc s) :
    ∃ st' ls', allocMemblk malloc s st = some st' ∧ Lists st' ls' ∧ ls' (.free s) ≠ [] ∧
      (∀ t, ls' (.used t) = ls (.used t)) ∧ st'.mpoolUsed = st.mpoolUsed ∧
      st'.mpoolMaxUsed = st.mpoolMaxUsed ∧ Framed st st' ∧ SameNames st' st := by
  obtain ⟨ptr, hp⟩ := isSome_iff_exists.mp hg.2
  obtain ⟨st', he, h', hu, hm, hne, hfr, hnames⟩ := allocMemblk_grow h hf hs hg.1 hp
  exact ⟨st', grownLists ls ptr s, he, h', hne, grownLists_used ls ptr s, hu, hm, hfr, hnames⟩

/-- What `memalloc` comes to: null if the class has no free block and cannot be grown, otherwise
a block that was not used. -/
inductive Obtained (malloc : Nat → Option Nat) (s : SizeClass) (st : Pool)
    (ls : ListId → List Node) : Option Nat → Pool → (ListId → List Node) → Prop
  | null (empty : ls (.free s) = []) (stuck : ¬ CanGrow malloc s) :
      Obtained malloc s st ls none st ls
  | block (a : Nat) (st' : Pool) (ls' : ListId → List Node)
      (room : ls (.free s) ≠ [] ∨ CanGrow malloc s) (taken : Taken s st a st')
      (framed : Framed st st') (names : SameNames st' st) (unused : ∀ t, .hdr a ∉ ls (.used t))
      (used : ls' (.used s) = .hdr a :: ls (.used s))
      (others : ∀ t, t ≠ s → ls' (.used t) = ls (.used t)) :
      Obtained malloc s st ls (some a) st' ls'

theorem takeFree_spec (h : Lists st ls) (malloc : Nat → Option Nat) (hs : 0 < s.val)
    (hne : ls (.free s) ≠ []) :
    ∃ r st' ls', takeFree s st = some (r, st') ∧ Lists st' ls' ∧
      Obtained malloc s st ls r st' ls' := by
  obtain ⟨a, st', he, hmem, h', ht, hfr, hnames⟩ := takeFree_block h hs hne
  refine ⟨some a, st', _, he, h', .block a st' _ (.inl hne) ht hfr hnames ?_ movedLists_target ?_⟩
  · intro t hu
    cases h.unique hmem hu
  · intro t hts
    exact movedLists_of_ne (by simp) (by simpa using hts)

theorem memalloc_spec (h : Lists st ls) (hf : Fresh malloc st) (hs : 0 < s.val) :
    ∃ r st' ls', memalloc malloc s st = some (r, st') ∧ Lists st' ls' ∧
      Obtained malloc s st ls r st' ls' := by
  have hring := dlistEmpty_iff (h.family.ring (.free s))
  by_cases he : ls (.free s) = []
  · by_cases hg : CanGrow malloc s
    · obtain ⟨st₁, ls₁, h₁, hl₁, hne, hused, hu, hm, hfr, hnames⟩ :=
        allocMemblk_spec h hf hs hg
      have hmem : memalloc malloc s st = takeFree s st₁ := by
        rw [memalloc, if_pos (hring.mpr he), h₁, bind_some]
      obtain ⟨r, st₂, ls₂, h₂, hl₂, ht⟩ := takeFree_spec hl₁ malloc hs hne
      refine ⟨r, st₂, ls₂, hmem.trans h₂, hl₂, ?_⟩
      cases ht with
      | null hempty => exact absurd hempty hne
      | block a _ _ _ htaken hfr₂ hnames₂ hunused hused₂ hothers =>
        refine .block a _ _ (.inr hg) ?_ (hfr.trans hfr₂) (hnames₂.trans hnames) ?_ ?_ ?_
        · exact ⟨htaken.carved_mem, List.Subset.trans hfr.supers htaken.supers, hu ▸ htaken.used,
            by rw [htaken.maxUsed, hm, hu]⟩
        · intro t
          rw [← hused t]
          exact hunused t
        · rw [hused₂, hused]
        · intro t hts
          rw [hothers t hts, hused]
    · refine ⟨none, st, ls, ?_, h, .null he hg⟩
      rw [memalloc, if_pos (hring.mpr he), allocMemblk_stuck hg, bind_some,
        takeFree_empty h he]
  · obtain ⟨r, st₂, ls₂, h₂, hl₂, ht⟩ := takeFree_spec h malloc hs he
    refine ⟨r, st₂, ls₂, ?_, hl₂, ht⟩
    rw [memalloc, if_neg (he ∘ hring.mp), bind_some, h₂]

theorem Lists.track (h : Lists st ls) (mem : Nat → UInt8) (mhFiles : Nat → Option (List UInt8))
    (file : Nat → Nat) (line : Nat → Int) :
    Lists { st with mem := mem, mhFiles := mhFiles, file := file, line := line } ls :=
  ⟨h.family, h.free_len, h.used_len, h.count_eq, h.blocks, h.used_zero, h.supers, h.apart,
    h.flags_eq⟩

/-- What `mh_malloc` does: it returns null and changes nothing, or it takes one
block of a class that is large enough. -/
inductive Malloced (size : Nat) (st : Pool) : Option Nat → Pool → Prop
  | null : Malloced size st none st
  | block (a : Nat) (s : SizeClass) (st' : Pool) (taken : Taken s st a st')
      (fits : size ≤ 2 ^ s.val) : Malloced size st (some (memptr a)) st'

theorem Framed.track {a : Nat} (ha : Header st a) (strdupOk : Bool) (file : List UInt8)
    (line : Int) : Framed st (memblkTracking strdupOk a file line st) := by
  refine ⟨List.Subset.refl _, rfl, ?_⟩
  intro x hx
  have hne : x ≠ a := fun e => hx (e ▸ ha)
  exact ⟨.refl _ _, rfl, update_of_ne hne _ _, update_of_ne hne _ _⟩

/-- What `mh_malloc` comes to on the classes it tries: null if none of those that are large enough
has a free block or can be grown, otherwise a block of such a class, which is then tracked. -/
inductive Granted (c : Call) (size : Nat) (classes : List SizeClass) (st : Pool)
    (ls : ListId → List Node) : Option Nat → Pool → (ListId → List Node) → Prop
  | null (stuck : ∀ s ∈ classes, size ≤ 2 ^ s.val → ls (.free s) = [] ∧ ¬ CanGrow c.malloc s) :
      Granted c size classes st ls none st ls
  | block (a : Nat) (s : SizeClass) (st' : Pool) (ls' : ListId → List Node) (tried : s ∈ classes)
      (fits : size ≤ 2 ^ s.val) (obtained : Obtained c.malloc s st ls (some a) st' ls') :
      Granted c size classes st ls (some (memptr a))
        (memblkTracking c.strdupOk a c.file c.line st') ls'

/-- By induction on the sizes that are left to try. -/
theorem mhMallocLoop_spec (c : Call) (size : Nat) (classes : List SizeClass)
    (hcl : ∀ i ∈ classes, 0 < i.val) (h : Lists st ls) (hf : Fresh c.malloc st) :
    ∃ r st' ls', mhMallocLoop c size classes st = some (r, st') ∧ Lists st' ls' ∧
      Granted c size classes st ls r st' ls' := by
  induction classes with
  | nil => exact ⟨none, st, ls, rfl, h, .null fun s hs => nomatch hs⟩
  | cons i rest ih =>
    obtain ⟨r', st₂, ls₂, h₂, hl₂, hm⟩ := ih fun j hj => hcl j (mem_cons_of_mem i hj)
    -- passing over the first class leaves the outcome on the others
    have hskip : (size ≤ 2 ^ i.val → ls (.free i) = [] ∧ ¬ CanGrow c.malloc i) →
        Granted c size (i :: rest) st ls r' st₂ ls₂ := by
      intro hi
      cases hm with
      | null hstuck => exact .null (forall_mem_cons.mpr ⟨hi, hstuck⟩)
      | block a s _ _ htried hfits hob =>
        exact .block a s _ _ (mem_cons_of_mem i htried) hfits hob
    by_cases hsize : size ≤ 2 ^ i.val
    · obtain ⟨r, st₁, ls₁, h₁, hl₁, hob⟩ := memalloc_spec h hf (hcl i mem_cons_self)
      cases r with
      | none =>
        cases hob with
        | null hempty hstuck =>
          refine ⟨r', st₂, ls₂, ?_, hl₂, hskip fun _ => ⟨hempty, hstuck⟩⟩
          simp only [mhMallocLoop, if_pos hsize, h₁, bind_some, h₂]
      | some a =>
        refine ⟨some (memptr a), memblkTracking c.strdupOk a c.file c.line st₁, ls₁, ?_,
          hl₁.track _ _ _ _, .block a i _ _ mem_cons_self hsize hob⟩
        simp only [mhMallocLoop, if_pos hsize, h₁, bind_some]
    · refine ⟨r', st₂, ls₂, ?_, hl₂, hskip fun hi => absurd hi hsize⟩
      rw [mhMallocLoop, if_neg hsize, h₂]

theorem mhMalloc_granted (c : Call) {size : Nat} (hsize : 0 < size) (h : Lists st ls)
    (hf : Fresh c.malloc st) :
    ∃ r st' ls', mhMalloc c size st = some (r, st') ∧ Lists st' ls' ∧
      Granted c size mallocClasses st ls r st' ls' := by
  rw [mhMalloc, if_pos hsize]
  exact mhMallocLoop_spec c size mallocClasses (by decide) h hf

theorem Granted.malloced {c : Call} {size : Nat} {classes : List SizeClass} {r : Option Nat}
    {st' : Pool} {ls' : ListId → List Node} (h : Granted c size classes st ls r st' ls') :
    Malloced size st r st' := by
  cases h with
  | null _ => exact .null
  | block a s _ _ _ hfits hob =>
    cases hob with
    | block _ _ _ _ htaken _ _ _ _ _ =>
      exact .block a s _ ⟨htaken.carved_mem, htaken.supers, htaken.used, htaken.maxUsed⟩ hfits

/-- `mh_malloc` ends, keeps the lists, and takes at most one block. -/
theorem mhMalloc_spec (c : Call) (size : Nat) (h : Lists st ls) (hf : Fresh c.malloc st) :
    ∃ r st' ls', mhMalloc c size st = some (r, st') ∧ Lists st' ls' ∧
      Malloced size st r st' := by
  by_cases hsize : 0 < size
  · obtain ⟨r, st', ls', he, hl, hg⟩ := mhMalloc_granted c hsize h hf
    exact ⟨r, st', ls', he, hl, hg.malloced⟩
  · rw [mhMalloc, if_neg hsize]
    exact ⟨none, st, ls, rfl, h, .null⟩

end Alloc

/-- A block was given back: one block less of its class is used. -/
structure Given (s : SizeClass) (st st' : Pool) : Prop where
  supers : st'.superBlocks = st.superBlocks
  used : st'.mpoolUsed = Function.update st.mpoolUsed s (st.mpoolUsed s - 1)
  maxUsed : st'.mpoolMaxUsed = st.mpoolMaxUsed
  mem : st'.mem = st.mem
  names : SameNames st' st

section Free

variable {st : Pool} {ls : ListId → List Node} {s : SizeClass} {a : Nat}

theorem isEntryInUsed_spec (h : Lists st ls) (fuel : Nat) :
    (∀ b, isEntryInUsed fuel st a s = some b → b = decide (.hdr a ∈ ls (.used s))) ∧
      ((ls (.used s)).length < fuel → (isEntryInUsed fuel st a s).isSome) := by
  have hr := h.family.ring (.used s)
  have hs := hr.search (p := fun n => n == .hdr a) fuel
  simp only [isEntryInUsed, hr.next_head, bind_some, isSome_map]
  refine ⟨?_, hs.2⟩
  intro b hb
  obtain ⟨n, hn, rfl⟩ := map_eq_some_iff.mp hb
  rw [hs.1 n hn]
  by_cases hm : .hdr a ∈ ls (.used s)
  · have hsome : ((ls (.used s)).find? fun n => n == .hdr a).isSome :=
      find?_isSome.mpr ⟨_, hm, beq_self_eq_true _⟩
    obtain ⟨d, hd⟩ := isSome_iff_exists.mp hsome
    have hda := find?_some hd
    simp [hd, hm, beq_iff_eq.mp hda]
  · have hnone : ((ls (.used s)).find? fun n => n == .hdr a) = none := by
      apply find?_eq_none.mpr
      intro n hn he
      exact hm (beq_iff_eq.mp he ▸ hn)
    simp [hnone, hm]

theorem giveBack_spec (h : Lists st ls) (hs : 0 < s.val) (hu : .hdr a ∈ ls (.used s)) :
    ∃ st', giveBack a s st = some st' ∧ Lists st' (movedLists ls (.used s) (.free s) (.hdr a)) ∧
      Given s st st' := by
  obtain ⟨L₁, L₂, h₁, h₂, F⟩ :=
    dlistMove_family h.family (by simp : ListId.used s ≠ .free s) hu
  refine ⟨_, ?_, h.give hs hu F, rfl, rfl, rfl, rfl, ⟨rfl, rfl⟩⟩
  rw [giveBack, h₁, bind_some, h₂]
  rfl

theorem mhFree_eq (h : Lists st ls) (hc : (a, s) ∈ carved st) (fuel : Nat) :
    mhFree fuel (some (memptr a)) st =
      (isEntryInUsed fuel st a s).bind fun inUsed =>
        if inUsed then giveBack a s st else some st := by
  have hfl : st.flags a = memblkFlags s := h.flags_eq a s hc
  have hsz : memblkSize (st.flags a) = s.val := by rw [hfl, memblkSize_flags]
  have hlt : memblkSize (st.flags a) < memPoolsCount := hsz ▸ s.isLt
  have hcls : (⟨memblkSize (st.flags a), hlt⟩ : SizeClass) = s := Fin.ext hsz
  simp only [mhFree, memhdr_memptr, hfl, memblkCheck_flags, if_true]
  rw [memfree, dif_pos hlt, hcls]

/-- `mh_free` of a block gives it back if it is used, and else changes nothing, when the walk over
the used blocks does not run out of fuel. -/
theorem mhFree_cases (h : Lists st ls) (hc : (a, s) ∈ carved st) (fuel : Nat) :
    (mhFree fuel (some (memptr a)) st = none ∧ ¬ (ls (.used s)).length < fuel) ∨
      (.hdr a ∉ ls (.used s) ∧ mhFree fuel (some (memptr a)) st = some st) ∨
      (.hdr a ∈ ls (.used s) ∧ ∃ st', mhFree fuel (some (memptr a)) st = some st' ∧
        Lists st' (movedLists ls (.used s) (.free s) (.hdr a)) ∧ Given s st st') := by
  obtain ⟨hfound, hfuel⟩ := isEntryInUsed_spec (a := a) (s := s) h fuel
  rw [mhFree_eq h hc]
  cases hb : isEntryInUsed fuel st a s with
  | none =>
    refine .inl ⟨rfl, fun hl => ?_⟩
    rw [hb] at hfuel
    exact absurd (hfuel hl) (by simp)
  | some b =>
    have hbu := hfound b hb
    by_cases hu : .hdr a ∈ ls (.used s)
    · rw [decide_eq_true hu] at hbu
      rw [hbu]
      exact .inr (.inr ⟨hu, giveBack_spec h (carved_pos hc) hu⟩)
    · rw [decide_eq_false hu] at hbu
      rw [hbu]
      exact .inr (.inl ⟨hu, rfl⟩)

theorem mhFree_used (h : Lists st ls) (hu : .hdr a ∈ ls (.used s)) {fuel : Nat}
    (hfuel : (ls (.used s)).length < fuel) :
    ∃ st', mhFree fuel (some (memptr a)) st = some st' ∧
      Lists st' (movedLists ls (.used s) (.free s) (.hdr a)) ∧ Given s st st' := by
  obtain ⟨_, e, hc⟩ := h.used_mem hu
  cases e
  obtain ⟨_, hno⟩ | ⟨hnot, _⟩ | ⟨_, hgiven⟩ := mhFree_cases h hc fuel
  · exact absurd hfuel hno
  · exact absurd hu hnot
  · exact hgiven

theorem mhFree_free (h : Lists st ls) (hc : (a, s) ∈ carved st) (hn : .hdr a ∈ ls (.free s))
    {fuel : Nat} (hfuel : (ls (.used s)).length < fuel) :
    mhFree fuel (some (memptr a)) st = some st := by
  obtain ⟨_, hno⟩ | ⟨_, he⟩ | ⟨hu, _⟩ := mhFree_cases h hc fuel
  · exact absurd hfuel hno
  · exact he
  · cases h.unique hn hu

end Free

/-- The pointer was carved: it is the first usable byte of a block. -/
def IsBlock (st : Pool) (p : Nat) : Prop := ∃ a s, p = memptr a ∧ (a, s) ∈ carved st

variable {st : Pool} {returned : List Nat} {hist : List Pool}

theorem IsBlock.mono {st' : Pool} (h : st.superBlocks ⊆ st'.superBlocks) {p : Nat}
    (hp : IsBlock st p) : IsBlock st' p := by
  obtain ⟨a, s, e, hc⟩ := hp
  exact ⟨a, s, e, carved_mono h hc⟩

/-- What every operation leaves, whatever it returns. -/
structure Stepped (st : Pool) (r : Option Nat) (st' : Pool) : Prop where
  lists : ∃ ls, Lists st' ls
  supers : st.superBlocks ⊆ st'.superBlocks
  result : ∀ p ∈ r, IsBlock st' p
  maxUsed : ∀ s, st.mpoolUsed s ≤ st.mpoolMaxUsed s →
    st'.mpoolMaxUsed s = max (st.mpoolMaxUsed s) (st'.mpoolUsed s)

section Exec

variable {st : Pool} {ls : ListId → List Node}

variable {r : Option Nat} {st' : Pool} {size : Nat} {s : SizeClass}

theorem Stepped.refl (h : Lists st ls) (hr : ∀ p ∈ r, IsBlock st p) :
    Stepped st r st :=
  ⟨⟨ls, h⟩, List.Subset.refl _, hr, fun _ hs => (max_eq_left hs).symm⟩

theorem Stepped.track (h : Stepped st r st') (mem : Nat → UInt8) :
    Stepped st r { st' with mem := mem } := by
  obtain ⟨ls, hl⟩ := h.lists
  exact ⟨⟨ls, hl.track mem _ _ _⟩, h.supers, h.result, h.maxUsed⟩

/-- A step that allocates. -/
theorem Malloced.stepped (hm : Malloced size st r st') (h : Lists st' ls) : Stepped st r st' := by
  cases hm with
  | null => exact .refl h (by simp)
  | block a s _ ht hfit =>
    refine ⟨⟨ls, h⟩, ht.supers, ?_, ?_⟩
    · intro p hp
      rw [mem_some] at hp
      exact ⟨a, s, hp.symm, ht.carved_mem⟩
    · intro t hle
      rw [ht.used, ht.maxUsed]
      by_cases hts : t = s
      · subst hts
        simp only [update_self]
      · rw [update_of_ne hts, update_of_ne hts, max_eq_left hle]

/-- A step that gives a block back. -/
theorem Given.stepped (hf : Given s st st') (h : Lists st' ls) : Stepped st none st' := by
  refine ⟨⟨ls, h⟩, by rw [hf.supers]; exact List.Subset.refl _, by simp, ?_⟩
  intro t ht
  have hle : st'.mpoolUsed t ≤ st.mpoolUsed t := by
    rw [hf.used]
    by_cases hts : t = s
    · subst hts
      rw [update_self]
      omega
    · rw [update_of_ne hts]
  rw [hf.maxUsed, max_eq_left (hle.trans ht)]

theorem Malloced.used_of_lt (hm : Malloced size st r st') (hlt : 2 ^ s.val < size) :
    st'.mpoolUsed s = st.mpoolUsed s := by
  cases hm with
  | null => rfl
  | block a t _ ht hfit =>
    have hne : s ≠ t := by
      intro e
      subst e
      omega
    rw [ht.used, update_of_ne hne]

/-- A step that moves a block to a larger one. -/
theorem stepped_realloc {st₁ st₂ : Pool} {ls₁ : ListId → List Node} (hm : Malloced size st r st₁)
    (hf : Given s st₁ st₂) (hlt : 2 ^ s.val < size) (h₁ : Lists st₁ ls₁) (h₂ : Lists st₂ ls) :
    Stepped st r st₂ := by
  have hst := hm.stepped h₁
  refine ⟨⟨ls, h₂⟩, hf.supers ▸ hst.supers, ?_, ?_⟩
  · intro p hp
    exact (hst.result p hp).mono (hf.supers ▸ List.Subset.refl _)
  · intro t ht
    rw [hf.maxUsed, hf.used, hst.maxUsed t ht]
    by_cases hts : t = s
    · subst hts
      have hut := hm.used_of_lt hlt
      rw [update_self]
      omega
    · rw [update_of_ne hts]

/-- The call returns when the walks have fuel for the used lists, and any call
that returns keeps the invariant. -/
def Sound (st : Pool) (fuel : Nat) (run : Option (Option Nat × Pool)) : Prop :=
  (∀ r st', run = some (r, st') → Stepped st r st') ∧
    ((∀ s, st.mpoolUsed s < fuel) → run.isSome)

variable {fuel : Nat}

theorem sound_none (h : ¬ st.mpoolUsed s < fuel) : Sound st fuel none :=
  ⟨fun _ _ => nofun, fun hfuel => absurd (hfuel s) h⟩

theorem sound_some (h : Stepped st r st') :
    Sound st fuel (some (r, st')) := by
  refine ⟨?_, fun _ => rfl⟩
  intro r₁ st₁ e
  cases e
  exact h

theorem mhMalloc_sound (c : Call) (size : Nat) (h : Lists st ls) (hf : Fresh c.malloc st) :
    Sound st c.fuel (mhMalloc c size st) := by
  obtain ⟨r, st', ls', he, hl, hm⟩ := mhMalloc_spec c size h hf
  rw [he]
  exact sound_some (hm.stepped hl)

/-- A call that fills in the block that it returns is as sound as the allocation. -/
theorem Sound.stored {run : Option (Option Nat × Pool)} (h : Sound st fuel run)
    (bytes : List UInt8) :
    Sound st fuel (run.map fun r => (r.1, match r.1 with
      | some ptr => store r.2 ptr bytes
      | none => r.2)) := by
  refine ⟨?_, fun hfuel => isSome_map.trans (h.2 hfuel)⟩
  rintro r st' e
  obtain ⟨⟨r₁, st₁⟩, he, e⟩ := map_eq_some_iff.mp e
  cases e
  have hst := h.1 r₁ st₁ he
  cases r₁ with
  | none => exact hst
  | some p => exact hst.track _

theorem mhFree_sound (fuel : Nat) (ptr : Option Nat) (h : Lists st ls)
    (hp : ∀ p ∈ ptr, IsBlock st p) :
    Sound st fuel ((mhFree fuel ptr st).map fun st => (none, st)) := by
  cases ptr with
  | none => exact sound_some (.refl h (by simp))
  | some p =>
    obtain ⟨a, s, rfl, hc⟩ := hp p rfl
    obtain ⟨he, hno⟩ | ⟨_, he⟩ | ⟨_, st', he, hl, hgiven⟩ := mhFree_cases h hc fuel
    · rw [he]
      exact sound_none (h.used_len s ▸ hno)
    · rw [he]
      exact sound_some (.refl h (by simp))
    · rw [he]
      exact sound_some (hgiven.stepped hl)

theorem Malloced.track {q : Nat} (hm : Malloced size st (some q) st') (mem : Nat → UInt8) :
    Malloced size st (some q) { st' with mem := mem } := by
  cases hm with
  | block a s _ ht hfit =>
    exact .block a s _ ⟨ht.carved_mem, ht.supers, ht.used, ht.maxUsed⟩ hfit

theorem mhFree_after_malloc {a : Nat} {st₁ : Pool} (hm : Malloced size st r st₁)
    (h₁ : Lists st₁ ls) (hlt : 2 ^ s.val < size) (hc : (a, s) ∈ carved st) :
    Sound st fuel ((mhFree fuel (some (memptr a)) st₁).map fun st => (r, st)) := by
  have hc₁ : (a, s) ∈ carved st₁ := carved_mono (hm.stepped h₁).supers hc
  obtain ⟨he, hno⟩ | ⟨_, he⟩ | ⟨_, st', he, hl, hgiven⟩ := mhFree_cases h₁ hc₁ fuel
  · rw [he]
    rw [← h₁.used_len s, hm.used_of_lt hlt] at hno
    exact sound_none hno
  · rw [he]
    exact sound_some (hm.stepped h₁)
  · rw [he]
    exact sound_some (stepped_realloc hm hgiven hlt h₁ hl)

theorem mhRealloc_sound (c : Call) (ptr : Option Nat) (size : Nat) (h : Lists st ls)
    (hf : Fresh c.malloc st) (hp : ∀ p ∈ ptr, IsBlock st p) :
    Sound st c.fuel (mhRealloc c ptr size st) := by
  cases ptr with
  | none =>
    by_cases hs : 0 < size
    · rw [mhRealloc, if_pos hs]
      exact mhMalloc_sound c size h hf
    · rw [mhRealloc, if_neg hs]
      exact sound_some (.refl h (by simp))
  | some p =>
    obtain ⟨a, s, rfl, hc⟩ := hp p rfl
    have hfl := h.flags_eq a s hc
    simp only [mhRealloc, memhdr_memptr, hfl, memblkCheck_flags, memblkSize_flags, if_true]
    by_cases hlt : 2 ^ s.val < size
    · obtain ⟨r, st₁, ls₁, he, hl₁, hm⟩ := mhMalloc_spec c size h hf
      rw [if_pos hlt, he, bind_some]
      cases r with
      | none => exact mhFree_after_malloc hm hl₁ hlt hc
      | some q => exact mhFree_after_malloc (hm.track _) (hl₁.track _ _ _ _) hlt hc
    · rw [if_neg hlt]
      exact sound_some (.refl h hp)

theorem exec_sound {returned : List Nat} (c : Call) (op : Op) (h : Lists st ls)
    (hf : Fresh c.malloc st) (hop : op.Allowed returned)
    (hret : ∀ p ∈ returned, IsBlock st p) : Sound st c.fuel (exec c op st) := by
  cases op with
  | malloc size => exact mhMalloc_sound c size h hf
  | calloc | strdup => exact (mhMalloc_sound c _ h hf).stored _
  | realloc ptr size =>
    refine mhRealloc_sound c ptr size h hf ?_
    intro p hp
    cases hp
    exact hret p hop
  | free ptr =>
    refine mhFree_sound c.fuel ptr h ?_
    intro p hp
    cases hp
    exact hret p hop

end Exec

/-- The invariant of a run: the pool is well formed, every pointer that was
returned is a block, and the maximum is exact over the pools passed. -/
structure Good (st : Pool) (returned : List Nat) (hist : List Pool) : Prop where
  lists : ∃ ls, Lists st ls
  returned : ∀ p ∈ returned, IsBlock st p
  maxUsed : ∀ s, IsGreatest {n | ∃ q ∈ hist, q.mpoolUsed s = n} (st.mpoolMaxUsed s)
  current : st ∈ hist

theorem mhInitAll_lists (st : Pool) : Lists (mhInitAll st) fun _ => [] := by
  refine ⟨⟨?_, ?_⟩, ?_, ?_, ?_, ?_, rfl, ?_, List.Pairwise.nil, ?_⟩
  · intro l
    exact ⟨⟨rfl, rfl⟩, by simp⟩
  · intro l l' hne x hx hx'
    simp only [mem_singleton] at hx hx'
    exact hne (Node.head.inj (hx.symm.trans hx'))
  all_goals simp [mhInitAll, classBlocks, carved]

theorem Good.used_le (h : Good st returned hist) (s : SizeClass) :
    st.mpoolUsed s ≤ st.mpoolMaxUsed s :=
  (h.maxUsed s).2 ⟨st, h.current, rfl⟩

theorem isGreatest_insert_max {f : Pool → Nat} {m : Nat}
    (h : IsGreatest {n | ∃ q ∈ hist, f q = n} m) (st' : Pool) :
    IsGreatest {n | ∃ q ∈ st' :: hist, f q = n} (max m (f st')) := by
  have hset : {n | ∃ q ∈ st' :: hist, f q = n} = insert (f st') {n | ∃ q ∈ hist, f q = n} := by
    ext n
    simp [eq_comm]
  rw [hset, max_comm]
  exact h.insert (f st')

theorem Good.call {st' : Pool} {r : Option Nat} (h : Good st returned hist)
    (hst : Stepped st r st') :
    Good st' (r.toList ++ returned) (st' :: hist) := by
  refine ⟨hst.lists, ?_, ?_, mem_cons_self⟩
  · intro p hp
    obtain hp := mem_append.mp hp
    cases hp with
    | inl hp => exact hst.result p (mem_toList.mp hp)
    | inr hp => exact (h.returned p hp).mono hst.supers
  · intro s
    rw [hst.maxUsed s (h.used_le s)]
    exact isGreatest_insert_max (h.maxUsed s) st'

/-- The run lemma: what holds after any calls. -/
theorem Reach.good (h : Reach st returned hist) : Good st returned hist := by
  induction h with
  | init st =>
    refine ⟨⟨_, mhInitAll_lists st⟩, by simp, ?_, by simp⟩
    intro s
    simp [mhInitAll, IsGreatest, upperBounds]
  | call c op r st' _ hop hf he ih =>
    obtain ⟨ls, hl⟩ := ih.lists
    exact ih.call ((exec_sound c op hl hf hop ih.returned).1 r st' he)
  | write p off bytes _ hp hlen ih =>
    obtain ⟨ls, hl⟩ := ih.lists
    exact ih.call ((Stepped.refl hl (r := none) (by simp)).track _)

/-- What holds of a pool `st` with the lists `ls` after the calls that returned
`returned` and passed the pools `hist`. -/
structure PoolInvariant (st : Pool) (returned : List Nat) (hist : List Pool)
    (ls : ListId → List Node) : Prop where
  rings : ∀ l, st.links.Ring (.head l) (ls l)
  free_len : ∀ s : SizeClass, 1 ≤ s.val → st.mpoolFree s = (ls (.free s)).length
  used_len : ∀ s : SizeClass, 1 ≤ s.val → st.mpoolUsed s = (ls (.used s)).length
  total : ∀ s : SizeClass, 1 ≤ s.val →
    st.mpoolFree s + st.mpoolUsed s = st.mpoolCount s * mpoolIncrease s
  one_list : ∀ a s, (a, s) ∈ carved st → memblkSize (st.flags a) = s.val ∧
    ∃ l, (l = .free s ∨ l = .used s) ∧ ∀ l', .hdr a ∈ ls l' ↔ l' = l
  max_used : ∀ s : SizeClass, 1 ≤ s.val →
    IsGreatest {n | ∃ q ∈ hist, q.mpoolUsed s = n} (st.mpoolMaxUsed s)
  free_again : ∀ a s fuel, (a, s) ∈ carved st → .hdr a ∈ ls (.free s) →
    (ls (.used s)).length < fuel → mhFree fuel (some (memptr a)) st = some st
  returns : ∀ c op, op.Allowed returned → Fresh c.malloc st →
    (∀ s, st.mpoolUsed s < c.fuel) → (exec c op st).isSome

theorem length_classBlocks (st : Pool) (s : SizeClass) :
    (classBlocks st s).length =
      (st.superBlocks.countP fun b => b.2 == s) * mpoolIncrease s := by
  rw [classBlocks, carved, length_map]
  induction st.superBlocks with
  | nil => simp
  | cons b bs ih =>
    rw [flatMap_cons, filter_append, length_append, ih, filter_carvedFrom,
      countP_cons]
    by_cases hb : (b.2 == s) = true
    · rw [if_pos hb, if_pos hb, Nat.add_mul, Nat.one_mul, Nat.add_comm, ← beq_iff_eq.mp hb]
      simp [carvedFrom]
    · rw [if_neg hb, if_neg hb]
      simp

variable {ls : ListId → List Node}

theorem Lists.total (h : Lists st ls) {s : SizeClass} (hs : 0 < s.val) :
    st.mpoolFree s + st.mpoolUsed s = st.mpoolCount s * mpoolIncrease s := by
  calc st.mpoolFree s + st.mpoolUsed s
      = (ls (.free s) ++ ls (.used s)).length := by
        rw [length_append, h.free_len s hs, h.used_len s]
    _ = (classBlocks st s).length := (h.blocks s hs).length_eq
    _ = st.mpoolCount s * mpoolIncrease s := by rw [length_classBlocks, h.count_eq s]

theorem Lists.one_list (h : Lists st ls) {a : Nat} {s : SizeClass} (hc : (a, s) ∈ carved st) :
    ∃ l, (l = .free s ∨ l = .used s) ∧ ∀ l', .hdr a ∈ ls l' ↔ l' = l := by
  cases h.carved_mem hc with
  | inl hm =>
    refine ⟨.free s, .inl rfl, fun l' => ⟨fun hl => h.unique hl hm, ?_⟩⟩
    intro e
    exact e ▸ hm
  | inr hm =>
    refine ⟨.used s, .inr rfl, fun l' => ⟨fun hl => h.unique hl hm, ?_⟩⟩
    intro e
    exact e ▸ hm

/-- Every pool that calls and client writes lead to satisfies the pool invariant. -/
theorem reach_poolInvariant {st : Pool} {returned : List Nat} {hist : List Pool}
    (h : Reach st returned hist) : ∃ ls, PoolInvariant st returned hist ls := by
  have hg := h.good
  obtain ⟨ls, hl⟩ := hg.lists
  refine ⟨ls, ?_⟩
  constructor
  · exact hl.family.ring
  · exact hl.free_len
  · intro s _
    exact hl.used_len s
  · intro s hs
    exact hl.total hs
  · intro a s hc
    exact ⟨by rw [hl.flags_eq a s hc, memblkSize_flags], hl.one_list hc⟩
  · intro s _
    exact hg.maxUsed s
  · intro a s fuel hc hm hfuel
    exact mhFree_free hl hc hm hfuel
  · intro c op hop hf hfuel
    exact (exec_sound c op hl hf hop hg.returned).2 hfuel

theorem fresh_init (malloc : Nat → Option Nat) (st : Pool) : Fresh malloc (mhInitAll st) :=
  fun _ _ _ _ hb => nomatch hb

def firstCall : Call := ⟨fun _ => some 1000, true, [], 0, 10⟩

/-- A test of the pool after one allocation of five bytes. -/
def afterMalloc (p : Pool → Bool) : Option (Option Nat × Bool) :=
  (exec firstCall (.malloc 5) (mhInitAll .bss)).map fun r => (r.1, p r.2)

theorem reach_malloc {p : Pool → Bool} (hp : afterMalloc p = some (some 1040, true)) :
    ∃ st, Reach st [1040] [st, mhInitAll .bss] ∧
      exec firstCall (.malloc 5) (mhInitAll .bss) = some (some 1040, st) ∧ p st = true := by
  obtain ⟨⟨r, st⟩, he, e⟩ := map_eq_some_iff.mp hp
  obtain ⟨rfl, htest⟩ := Prod.mk.inj e
  exact ⟨st, .call firstCall (.malloc 5) _ st (.init .bss) trivial (fresh_init _ _) he, he, htest⟩

/-- After one allocation of five bytes from the start state, one block of class three is used. -/
theorem reach_poolInvariant_malloc :
    ∃ st ls, Reach st [1040] [st, mhInitAll .bss] ∧ st.mpoolUsed 3 = 1 ∧
      PoolInvariant st [1040] [st, mhInitAll .bss] ls := by
  obtain ⟨st, hreach, -, hu⟩ := reach_malloc (p := fun st => st.mpoolUsed 3 == 1) (by decide)
  obtain ⟨ls, hinv⟩ := reach_poolInvariant hreach
  exact ⟨st, ls, hreach, eq_of_beq hu, hinv⟩

/-- The loop of `count_list` from an entry on. -/
def countFrom (st : Pool) (head : Node) : Nat → Node → Option Nat
  | 0, _ => none
  | fuel + 1, n =>
    if n = head then some 0 else ((st.links.next n).bind (countFrom st head fuel)).map (· + 1)

def countList (fuel : Nat) (st : Pool) (l : ListId) : Option Nat :=
  (st.links.next (.head l)).bind (countFrom st (.head l) fuel)

/-- The lines of `mh_diagnostic`, each with the numbers it prints. -/
inductive Complaint
  | free (s : SizeClass) (mpoolFree count : Nat)
  | used (s : SizeClass) (mpoolUsed count : Nat)
  | total (s : SizeClass) (mpoolFree mpoolUsed mpoolCount count : Nat)

/-- A round of `mh_diagnostic`. -/
def diagnose (fuel : Nat) (st : Pool) (s : SizeClass) : Option (List Complaint) := do
  let free ← countList fuel st (.free s)
  let used ← countList fuel st (.used s)
  let count := st.mpoolCount s * mpoolIncrease s
  pure ((if st.mpoolFree s ≠ free then [.free s (st.mpoolFree s) free] else []) ++
    (if st.mpoolUsed s ≠ used then [.used s (st.mpoolUsed s) used] else []) ++
    if count ≠ st.mpoolFree s + st.mpoolUsed s then
      [.total s (st.mpoolFree s) (st.mpoolUsed s) (st.mpoolCount s) count] else [])

def mhDiagnosticFrom (fuel : Nat) (st : Pool) : List SizeClass → Option (List Complaint)
  | [] => some []
  | s :: classes =>
    (diagnose fuel st s).bind fun lines => (mhDiagnosticFrom fuel st classes).map (lines ++ ·)

def mhDiagnostic (fuel : Nat) (st : Pool) : Option (List Complaint) :=
  mhDiagnosticFrom fuel st ((finRange memPoolsCount).drop 1)

theorem countFrom_path {head n : Node} {xs : List Node} {fuel : Nat}
    (h : st.links.Path n xs head) (hx : head ∉ xs) (hfuel : xs.length < fuel) :
    (st.links.next n).bind (countFrom st head fuel) = some xs.length := by
  induction xs generalizing n fuel with
  | nil =>
    obtain ⟨fuel, rfl⟩ := Nat.exists_eq_add_one_of_ne_zero (Nat.ne_zero_of_lt hfuel)
    simp [h.next_eq, countFrom]
  | cons x xs ih =>
    obtain ⟨fuel, rfl⟩ := Nat.exists_eq_add_one_of_ne_zero (Nat.ne_zero_of_lt hfuel)
    rw [mem_cons, not_or] at hx
    rw [h.next_eq, headD_cons, bind_some, countFrom, if_neg (Ne.symm hx.1),
      ih h.2 hx.2 (Nat.lt_of_succ_lt_succ hfuel), map_some, length_cons]

theorem Lists.countList (h : Lists st ls) {l : ListId} {fuel : Nat} (hfuel : (ls l).length < fuel) :
    countList fuel st l = some (ls l).length :=
  countFrom_path (h.family.ring l).path (h.family.ring l).not_mem hfuel

/-- `mh_diagnostic` walks along every list of a pool that calls lead to and finds nothing wrong. -/
theorem reach_mhDiagnostic {st : Pool} {returned : List Nat} {hist : List Pool} {fuel : Nat}
    (h : Reach st returned hist) (hfuel : ∀ s, st.mpoolFree s + st.mpoolUsed s < fuel) :
    mhDiagnostic fuel st = some [] := by
  obtain ⟨ls, hl⟩ := h.good.lists
  have hround (s : SizeClass) (hs : 0 < s.val) : diagnose fuel st s = some [] := by
    have hfree := hl.free_len s hs
    have hused := hl.used_len s
    have hless := hfuel s
    have hcount : countList fuel st (.free s) = some _ := hl.countList (by omega)
    have hcount' : countList fuel st (.used s) = some _ := hl.countList (by omega)
    simp [diagnose, hcount, hcount', hfree, hused, ← hl.total hs]
  suffices hall : ∀ classes : List SizeClass, (∀ s ∈ classes, 0 < s.val) →
      mhDiagnosticFrom fuel st classes = some [] from hall _ (by decide)
  intro classes
  induction classes with
  | nil => exact fun _ => rfl
  | cons s classes ih =>
    intro hpos
    rw [mhDiagnosticFrom, hround s (hpos s mem_cons_self), bind_some,
      ih fun t ht => hpos t (mem_cons_of_mem _ ht)]
    rfl

/-- One block of eight is used after an allocation of five bytes. -/
theorem reach_mhDiagnostic_malloc :
    ∃ st, Reach st [1040] [st, mhInitAll .bss] ∧ st.mpoolFree 3 = 7 ∧ st.mpoolUsed 3 = 1 ∧
      mhDiagnostic 9 st = some [] := by
  obtain ⟨st, hreach, -, hcounts⟩ := reach_malloc (p := fun st => decide (st.mpoolFree 3 = 7 ∧
    st.mpoolUsed 3 = 1 ∧ ∀ s, st.mpoolFree s + st.mpoolUsed s < 9)) (by decide)
  obtain ⟨hfree, hused, hfuel⟩ := of_decide_eq_true hcounts
  exact ⟨st, hreach, hfree, hused, reach_mhDiagnostic hreach hfuel⟩

end Wbr1310.Comlib.MemHelper
