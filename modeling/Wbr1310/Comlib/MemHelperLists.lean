import Wbr1310.Comlib.MemHelper

/-!
# The lists of the block pool

The links of a pool form disjoint rings, one for each list head. The counters
are the lengths of the rings, and the blocks carved for a class are exactly the
nodes of its free and its used ring. Three changes keep this invariant: adding a
super block, taking a free block into use, and giving a used block back.
-/

namespace Wbr1310.Comlib.MemHelper

open Lib Links List Function Nat

def classBlocks (st : Pool) (s : SizeClass) : List Node :=
  ((carved st).filter fun b => b.2 == s).map fun b => .hdr b.1

/-- The rings of a pool and what they say about its counters and headers. -/
structure Lists (st : Pool) (ls : ListId → List Node) : Prop where
  family : st.links.Family Node.head ls
  free_len : ∀ s, 0 < s.val → st.mpoolFree s = (ls (.free s)).length
  used_len : ∀ s, st.mpoolUsed s = (ls (.used s)).length
  count_eq : ∀ s, st.mpoolCount s = st.superBlocks.countP fun b => b.2 == s
  blocks : ∀ s, 0 < s.val → (ls (.free s) ++ ls (.used s)).Perm (classBlocks st s)
  used_zero : ls (.used 0) = []
  supers : ∀ n ∈ ls (.free 0), ∃ b ∈ st.superBlocks, n = .hdr b.1
  apart : st.superBlocks.Pairwise fun b b' =>
    b.1 + requiredSize b.2 ≤ b'.1 ∨ b'.1 + requiredSize b'.2 ≤ b.1
  flags_eq : ∀ a s, (a, s) ∈ carved st → st.flags a = memblkFlags s

variable {s : SizeClass} {b : Nat × SizeClass} {a x : Nat} {st st' : Pool} {ls : ListId → List Node}

theorem eq_zero_of_not_pos (h : ¬ 0 < s.val) : s = 0 :=
  Fin.ext (Nat.eq_zero_of_not_pos h)

theorem mem_carvedFrom :
    (a, s) ∈ carvedFrom b ↔
      s = b.2 ∧ ∃ k < mpoolIncrease b.2, a = b.1 + hdrSize + k * blockSize b.2 := by
  simp only [carvedFrom, mem_map, mem_range, Prod.mk.injEq]
  constructor
  · intro ⟨k, hk, ha, hs⟩
    exact ⟨hs.symm, k, hk, ha.symm⟩
  · intro ⟨hs, k, hk, ha⟩
    exact ⟨k, hk, ha.symm, hs.symm⟩

theorem blockSize_pos (s : SizeClass) : 0 < blockSize s := by
  exact Nat.add_pos_left (by decide) _

theorem carvedFrom_end (h : (a, s) ∈ carvedFrom b) :
    b.1 + hdrSize ≤ a ∧ a + blockSize s ≤ b.1 + requiredSize b.2 := by
  obtain ⟨rfl, k, hk, rfl⟩ := mem_carvedFrom.mp h
  have hle : (k + 1) * blockSize b.2 ≤ mpoolIncrease b.2 * blockSize b.2 :=
    mul_le_mul_right _ hk
  rw [Nat.add_mul, Nat.one_mul, Nat.mul_comm (mpoolIncrease b.2)] at hle
  simp only [requiredSize]
  omega

theorem carvedFrom_range (h : (a, s) ∈ carvedFrom b) : b.1 < a ∧ a < b.1 + requiredSize b.2 := by
  have hend := carvedFrom_end h
  have hpos := blockSize_pos s
  simp only [hdrSize] at hend
  omega

theorem carvedFrom_pos (h : (a, s) ∈ carvedFrom b) : 0 < s.val := by
  obtain ⟨rfl, k, hk, _⟩ := mem_carvedFrom.mp h
  by_contra h0
  rw [eq_zero_of_not_pos h0] at hk
  simp [mpoolIncrease] at hk

theorem mem_carved :
    (a, s) ∈ carved st ↔ ∃ b ∈ st.superBlocks, (a, s) ∈ carvedFrom b := by
  simp [carved, mem_flatMap]

theorem carved_mono (hsup : st.superBlocks ⊆ st'.superBlocks) (hb : b ∈ carved st) :
    b ∈ carved st' := by
  obtain ⟨b', hb', hab⟩ := mem_carved.mp hb
  exact mem_carved.mpr ⟨b', hsup hb', hab⟩

theorem carved_pos (h : (a, s) ∈ carved st) :
    0 < s.val := by
  obtain ⟨b, _, hb⟩ := mem_carved.mp h
  exact carvedFrom_pos hb

/-- The address lies outside every super block of the pool. -/
def Outside (st : Pool) (x : Nat) : Prop :=
  ∀ b ∈ st.superBlocks, x < b.1 ∨ b.1 + requiredSize b.2 ≤ x

theorem Outside.ne_super (h : Outside st x) (hb : b ∈ st.superBlocks) : x ≠ b.1 := by
  intro e
  have hr : 0 < requiredSize b.2 := by
    unfold requiredSize hdrSize
    omega
  have := h b hb
  omega

theorem Outside.ne_carved (h : Outside st x) (ha : (a, s) ∈ carved st) : x ≠ a := by
  intro e
  obtain ⟨b, hb, hab⟩ := mem_carved.mp ha
  have hr := carvedFrom_range hab
  have := h b hb
  omega

/-- The address of a header, of a block or of a super block. -/
def Header (st : Pool) (x : Nat) : Prop :=
  (∃ s, (x, s) ∈ carved st) ∨ ∃ b ∈ st.superBlocks, x = b.1

theorem Outside.not_header (h : Outside st x) : ¬ Header st x := by
  rintro (⟨s, hc⟩ | ⟨b, hb, e⟩)
  · exact h.ne_carved hc rfl
  · exact h.ne_super hb e

theorem Header.mono (h : st.superBlocks ⊆ st'.superBlocks) (hx : Header st x) : Header st' x := by
  obtain ⟨s, hc⟩ | ⟨b, hb, e⟩ := hx
  · exact .inl ⟨s, carved_mono h hc⟩
  · exact .inr ⟨b, h hb, e⟩

/-- The header at `x` is the same in both pools. -/
structure SameHeader (st' st : Pool) (x : Nat) : Prop where
  links : st'.links.SameAt st.links (.hdr x)
  flags : st'.flags x = st.flags x
  file : st'.file x = st.file x
  line : st'.line x = st.line x

/-- What no operation touches: the contents, and all that is not a header. -/
structure Framed (st st' : Pool) : Prop where
  supers : st.superBlocks ⊆ st'.superBlocks
  mem : st'.mem = st.mem
  headers : ∀ x, ¬ Header st' x → SameHeader st' st x

/-- The table of the file names and the indices in the headers are as before. -/
structure SameNames (st' st : Pool) : Prop where
  mhFiles : st'.mhFiles = st.mhFiles
  file : st'.file = st.file

theorem SameNames.trans {st'' : Pool} (h' : SameNames st'' st') (h : SameNames st' st) :
    SameNames st'' st :=
  ⟨h'.mhFiles.trans h.mhFiles, h'.file.trans h.file⟩

theorem Framed.refl (st : Pool) : Framed st st :=
  ⟨List.Subset.refl _, rfl, fun _ _ => ⟨.refl _ _, rfl, rfl, rfl⟩⟩

theorem Framed.trans {st'' : Pool} (h : Framed st st') (h' : Framed st' st'') :
    Framed st st'' := by
  refine ⟨List.Subset.trans h.supers h'.supers, h'.mem.trans h.mem, ?_⟩
  intro x hx
  have hnew := h'.headers x hx
  have hold := h.headers x fun hh => hx (hh.mono h'.supers)
  exact ⟨hnew.links.trans hold.links, hnew.flags.trans hold.flags, hnew.file.trans hold.file,
    hnew.line.trans hold.line⟩

section Lists

variable {st : Pool} {ls : ListId → List Node}

variable {s : SizeClass} {n : Node} {a : Nat} {b : Nat × SizeClass}

theorem mem_classBlocks :
    n ∈ classBlocks st s ↔ ∃ a, n = .hdr a ∧ (a, s) ∈ carved st := by
  simp only [classBlocks, mem_map, mem_filter, beq_iff_eq, Prod.exists]
  constructor
  · intro ⟨a, t, ⟨hc, ht⟩, hn⟩
    subst ht
    exact ⟨a, hn.symm, hc⟩
  · intro ⟨a, hn, hc⟩
    exact ⟨a, s, ⟨hc, rfl⟩, hn.symm⟩

theorem Lists.mem_iff (h : Lists st ls) (hs : 0 < s.val) :
    n ∈ ls (.free s) ∨ n ∈ ls (.used s) ↔ ∃ a, n = .hdr a ∧ (a, s) ∈ carved st := by
  rw [← mem_classBlocks, ← (h.blocks s hs).mem_iff, mem_append]

theorem Lists.free_mem (h : Lists st ls) (hs : 0 < s.val) (hn : n ∈ ls (.free s)) :
    ∃ a, n = .hdr a ∧ (a, s) ∈ carved st :=
  (h.mem_iff hs).mp (.inl hn)

theorem Lists.used_mem (h : Lists st ls) (hn : n ∈ ls (.used s)) :
    ∃ a, n = .hdr a ∧ (a, s) ∈ carved st := by
  by_cases hs : 0 < s.val
  · exact (h.mem_iff hs).mp (.inr hn)
  · rw [eq_zero_of_not_pos hs, h.used_zero] at hn
    cases hn

theorem Lists.carved_mem (h : Lists st ls) (hc : (a, s) ∈ carved st) :
    .hdr a ∈ ls (.free s) ∨ .hdr a ∈ ls (.used s) :=
  (h.mem_iff (carved_pos hc)).mpr ⟨a, rfl, hc⟩

theorem Lists.unique (h : Lists st ls) {l l' : ListId} (hn : n ∈ ls l) (hn' : n ∈ ls l') : l = l' :=
  h.family.index_unique (mem_cons_of_mem _ hn) (mem_cons_of_mem _ hn')

theorem carvedFrom_apart {a' : Nat} {s' : SizeClass} (h : (a, s) ∈ carvedFrom b)
    (h' : (a', s') ∈ carvedFrom b) :
    a = a' ∨ a + blockSize s ≤ a' ∨ a' + blockSize s' ≤ a := by
  obtain ⟨rfl, k, _, rfl⟩ := mem_carvedFrom.mp h
  obtain ⟨rfl, k', _, rfl⟩ := mem_carvedFrom.mp h'
  have hlt : ∀ {i j : Nat}, i < j → i * blockSize b.2 + blockSize b.2 ≤ j * blockSize b.2 := by
    intro i j hij
    calc i * blockSize b.2 + blockSize b.2
        = (i + 1) * blockSize b.2 := (succ_mul i _).symm
      _ ≤ j * blockSize b.2 := mul_le_mul_right _ hij
  obtain hk | hk | hk := lt_trichotomy k k'
  · have := hlt hk
    omega
  · exact .inl (by rw [hk])
  · have := hlt hk
    omega

theorem Lists.supers_apart (h : Lists st ls) {b' : Nat × SizeClass} (hb : b ∈ st.superBlocks)
    (hb' : b' ∈ st.superBlocks) (hne : b ≠ b') :
    b.1 + requiredSize b.2 ≤ b'.1 ∨ b'.1 + requiredSize b'.2 ≤ b.1 := by
  have hsymm : Std.Symm fun b b' : Nat × SizeClass =>
      b.1 + requiredSize b.2 ≤ b'.1 ∨ b'.1 + requiredSize b'.2 ≤ b.1 :=
    ⟨fun _ _ hr => hr.symm⟩
  exact h.apart.forall hb hb' hne

theorem Lists.blocks_apart (h : Lists st ls) {a' : Nat} {s' : SizeClass} (ha : (a, s) ∈ carved st)
    (ha' : (a', s') ∈ carved st) :
    a = a' ∨ a + blockSize s ≤ a' ∨ a' + blockSize s' ≤ a := by
  obtain ⟨b, hb, hab⟩ := mem_carved.mp ha
  obtain ⟨b', hb', hab'⟩ := mem_carved.mp ha'
  by_cases e : b = b'
  · subst e
    exact carvedFrom_apart hab hab'
  · have hbb := h.supers_apart hb hb' e
    have hin := carvedFrom_end hab
    have hin' := carvedFrom_end hab'
    omega

theorem Lists.super_apart (h : Lists st ls) (ha : (a, s) ∈ carved st) (hb : b ∈ st.superBlocks) :
    b.1 + hdrSize ≤ a ∨ a + blockSize s ≤ b.1 := by
  obtain ⟨b', hb', hab⟩ := mem_carved.mp ha
  have hin := carvedFrom_end hab
  by_cases e : b = b'
  · subst e
    exact .inl hin.1
  · have hbb := h.supers_apart hb hb' e
    have hreq : hdrSize ≤ requiredSize b.2 := le_add_right _ _
    omega

theorem Lists.off (h : Lists st ls) {x : Nat} (hx : ¬ Header st x) :
    Off Node.head ls (.hdr x) := by
  intro l hl
  have hm : Node.hdr x ∈ ls l := by simpa using hl
  cases l with
  | free s =>
    by_cases hs : 0 < s.val
    · obtain ⟨a, ha, hc⟩ := h.free_mem hs hm
      cases ha
      exact hx (.inl ⟨s, hc⟩)
    · rw [eq_zero_of_not_pos hs] at hm
      obtain ⟨b, hb, he⟩ := h.supers _ hm
      exact hx (.inr ⟨b, hb, Node.hdr.inj he⟩)
  | used s =>
    obtain ⟨a, ha, hc⟩ := h.used_mem hm
    cases ha
    exact hx (.inl ⟨s, hc⟩)

end Lists

theorem Fresh.outside {malloc : Nat → Option Nat} (h : Fresh malloc st) {n : Nat}
    (ha : malloc n = some a) (hl : a ≤ x) (hr : x < a + n) :
    Outside st x := by
  intro b hb
  have := h n a ha b hb
  omega

theorem addTail_init {L : Links Node} (F : L.Family Node.head ls) {x : Node}
    (hx : Off Node.head ls x) (l : ListId) :
    ∃ L', dlistAddTail (initDlistHead L x) x (.head l) = some L' ∧
      L'.Family Node.head (Function.update ls l (ls l ++ [x])) ∧
      ∀ c, Off Node.head ls c → c ≠ x → L'.SameAt L c := by
  obtain ⟨L', he, F'⟩ := dlistAddTail_family (F.close hx) hx (i := l) (append_nil (ls l)).symm
  refine ⟨L', he, F', ?_⟩
  intro c hc hne
  exact (dlistAddTail_sameAt (F.close hx) he hc hne).trans (close_sameAt hne)

theorem off_update {x y : Node} {l : ListId} (hx : Off Node.head ls x) (hxy : x ≠ y) :
    Off Node.head (Function.update ls l (ls l ++ [y])) x := by
  intro j
  by_cases hj : j = l
  · subst hj
    have := hx j
    simp only [update_self, mem_cons, mem_append] at this ⊢
    tauto
  · rw [update_of_ne hj]
    exact hx j

/-- The carving loop appends all its blocks, in address order, to the free ring. -/
theorem carve_spec (s : SizeClass) (n ptr : Nat) (st : Pool) (ls : ListId → List Node)
    (F : st.links.Family Node.head ls)
    (hoff : ∀ k < n, Off Node.head ls (.hdr (ptr + k * blockSize s))) :
    ∃ L flags, carve s n ptr st = some { st with
        links := L, flags := flags,
        mpoolFree := Function.update st.mpoolFree s (st.mpoolFree s + n) } ∧
      L.Family Node.head (Function.update ls (.free s)
        (ls (.free s) ++ (List.range n).map fun k => .hdr (ptr + k * blockSize s))) ∧
      (∀ k < n, flags (ptr + k * blockSize s) = memblkFlags s) ∧
      (∀ a, (∀ k < n, a ≠ ptr + k * blockSize s) → flags a = st.flags a) ∧
      ∀ c, Off Node.head ls c → (∀ k < n, c ≠ .hdr (ptr + k * blockSize s)) →
        L.SameAt st.links c := by
  induction n generalizing ptr st ls with
  | zero =>
    refine ⟨st.links, st.flags, ?_, ?_, ?_, ?_, ?_⟩
    · simp [carve]
    · simpa using F
    · intro k hk
      omega
    · intro a _
      rfl
    · intro c _ _
      exact .refl _ _
  | succ n ih =>
    have h0 : Off Node.head ls (.hdr ptr) := by simpa using hoff 0 (succ_pos n)
    obtain ⟨L₁, he₁, F₁, hsame₁⟩ := addTail_init F h0 (.free s)
    have hnext : ∀ k, ptr + blockSize s + k * blockSize s = ptr + (k + 1) * blockSize s := by
      intro k
      rw [Nat.add_mul, Nat.one_mul]
      omega
    have hoff₁ : ∀ k < n, Off Node.head
        (update ls (.free s) (ls (.free s) ++ [.hdr ptr]))
        (.hdr (ptr + blockSize s + k * blockSize s)) := by
      intro k hk
      have hpos := blockSize_pos s
      apply off_update
      · rw [hnext]
        exact hoff (k + 1) (by omega)
      · simp only [ne_eq, Node.hdr.injEq]
        omega
    obtain ⟨L, flags, he, F', hf, hf', hsame⟩ := ih (ptr + blockSize s)
      { st with links := L₁, flags := update st.flags ptr (memblkFlags s),
                mpoolFree := update st.mpoolFree s (st.mpoolFree s + 1) }
      _ F₁ hoff₁
    refine ⟨L, flags, ?_, ?_, ?_, ?_, ?_⟩
    · rw [carve, he₁, Option.bind_some, he]
      simp [Nat.add_assoc, Nat.add_comm 1 n]
    · have hlist : (ls (.free s) ++ [Node.hdr ptr]) ++
          (range n).map (fun k => Node.hdr (ptr + blockSize s + k * blockSize s)) =
          ls (.free s) ++ (range (n + 1)).map fun k => Node.hdr (ptr + k * blockSize s) := by
        rw [range_succ_eq_map, map_cons, map_map, append_assoc]
        simp only [hnext, singleton_append, Nat.zero_mul, Nat.add_zero, comp_def]
      simpa only [update_self, update_idem, hlist] using F'
    · intro k hk
      cases k with
      | zero =>
        rw [hf']
        · simp
        · intro k _
          have hpos := blockSize_pos s
          omega
      | succ k =>
        rw [← hnext]
        exact hf k (by omega)
    · intro a ha
      rw [hf']
      · have : a ≠ ptr := by simpa using ha 0 (succ_pos n)
        simp [update_of_ne this]
      · intro k hk
        rw [hnext]
        exact ha (k + 1) (by omega)
    · intro c hc hne
      have hfirst : c ≠ .hdr ptr := by simpa using hne 0 (succ_pos n)
      refine (hsame c (off_update hc hfirst) ?_).trans (hsame₁ c hc hfirst)
      intro k hk
      rw [hnext]
      exact hne (k + 1) (by omega)

theorem filter_carvedFrom (b : Nat × SizeClass) (s : SizeClass) :
    (carvedFrom b).filter (fun c => c.2 == s) = if b.2 == s then carvedFrom b else [] := by
  have h : ∀ c ∈ carvedFrom b, c.2 = b.2 := fun c hc => (mem_carvedFrom.mp hc).1
  split
  · rename_i hs
    exact filter_eq_self.mpr fun c hc => by rw [h c hc, hs]
  · rename_i hs
    exact filter_eq_nil_iff.mpr fun c hc => by rwa [h c hc]

theorem classBlocks_cons (st : Pool) (b : Nat × SizeClass) (s : SizeClass) :
    classBlocks { st with superBlocks := b :: st.superBlocks } s =
      (if b.2 == s then (carvedFrom b).map fun c => Node.hdr c.1 else []) ++ classBlocks st s := by
  simp only [classBlocks, carved, flatMap_cons, filter_append, map_append,
    filter_carvedFrom]
  split <;> rfl

/-- The rings after a super block was added and its blocks were freed. -/
def grownLists (ls : ListId → List Node) (ptr : Nat) (s : SizeClass) : ListId → List Node :=
  Function.update (Function.update ls (.free 0) (ls (.free 0) ++ [.hdr ptr])) (.free s)
    (ls (.free s) ++ (carvedFrom (ptr, s)).map fun c => .hdr c.1)

section Grown

variable (ls : ListId → List Node) (ptr : Nat) (s : SizeClass)

theorem grownLists_used (t : SizeClass) : grownLists ls ptr s (.used t) = ls (.used t) := by
  simp [grownLists]

theorem grownLists_self :
    grownLists ls ptr s (.free s) =
      ls (.free s) ++ (carvedFrom (ptr, s)).map fun c => Node.hdr c.1 :=
  update_self ..

theorem grownLists_zero {s : SizeClass} (hs : 0 < s.val) :
    grownLists ls ptr s (.free 0) = ls (.free 0) ++ [.hdr ptr] := by
  have hs0 : ListId.free 0 ≠ .free s := by
    intro e
    cases e
    exact absurd hs (by decide)
  rw [grownLists, update_of_ne hs0, update_self]

theorem grownLists_other {t : SizeClass} (hts : t ≠ s) (ht : 0 < t.val) :
    grownLists ls ptr s (.free t) = ls (.free t) := by
  have ht0 : t ≠ 0 := fun e => absurd (e ▸ ht) (by decide)
  simp [grownLists, hts, ht0]

end Grown

theorem Lists.grow (h : Lists st ls) (hs : 0 < s.val) {ptr : Nat} {L : Links Node}
    (flags : Nat → UInt32) (hout : ∀ x, ptr ≤ x → x < ptr + requiredSize s → Outside st x)
    (hapart : ∀ b ∈ st.superBlocks,
      ptr + requiredSize s ≤ b.1 ∨ b.1 + requiredSize b.2 ≤ ptr)
    (F : L.Family Node.head (grownLists ls ptr s))
    (hnew : ∀ a t, (a, t) ∈ carvedFrom (ptr, s) → flags a = memblkFlags t)
    (hold : ∀ a, Outside st a ∨ flags a = st.flags a) :
    Lists { st with
      links := L, flags := flags,
      mpoolFree := Function.update st.mpoolFree s (st.mpoolFree s + mpoolIncrease s),
      mpoolCount := Function.update st.mpoolCount s (st.mpoolCount s + 1),
      superBlocks := (ptr, s) :: st.superBlocks } (grownLists ls ptr s) := by
  refine ⟨F, ?_, ?_, ?_, ?_, ?_, ?_, ?_, ?_⟩
  · intro t ht
    by_cases hts : t = s
    · subst hts
      rw [grownLists_self]
      simp [h.free_len t ht, carvedFrom]
    · rw [grownLists_other ls ptr s hts ht]
      simp [hts, h.free_len t ht]
  · intro t
    rw [grownLists_used]
    exact h.used_len t
  · intro t
    by_cases hts : t = s
    · subst hts
      simp [h.count_eq t]
    · simp [hts, h.count_eq t, Ne.symm hts]
  · intro t ht
    change List.Perm _ (classBlocks { st with superBlocks := (ptr, s) :: st.superBlocks } t)
    rw [grownLists_used, classBlocks_cons]
    by_cases hts : t = s
    · subst hts
      rw [if_pos (beq_self_eq_true t), grownLists_self, append_assoc]
      exact (perm_append_comm_assoc ..).trans ((h.blocks t ht).append_left _)
    · rw [if_neg (by simpa using Ne.symm hts), grownLists_other ls ptr s hts ht]
      exact h.blocks t ht
  · rw [grownLists_used]
    exact h.used_zero
  · intro n hn
    rw [grownLists_zero ls ptr hs, mem_append, mem_singleton] at hn
    cases hn with
    | inl hn =>
      obtain ⟨b, hb, he⟩ := h.supers n hn
      exact ⟨b, mem_cons_of_mem _ hb, he⟩
    | inr hn => exact ⟨(ptr, s), mem_cons_self, hn⟩
  · exact pairwise_cons.mpr ⟨hapart, h.apart⟩
  · intro a t ha
    obtain ⟨b, hb, hab⟩ := mem_carved.mp ha
    obtain hb := mem_cons.mp hb
    cases hb with
    | inl hb =>
      rw [hb] at hab
      exact hnew a t hab
    | inr hb =>
      have hc : (a, t) ∈ carved st := mem_carved.mpr ⟨b, hb, hab⟩
      cases hold a with
      | inl ho => exact absurd rfl (ho.ne_carved hc)
      | inr he => exact he.trans (h.flags_eq a t hc)

/-- `alloc_memblk` adds one super block, all of whose blocks become free. -/
theorem allocMemblk_grow (h : Lists st ls) {malloc : Nat → Option Nat} (hf : Fresh malloc st)
    (hs : 0 < s.val) (hi : 0 < mpoolIncrease s) {ptr : Nat}
    (hp : malloc (requiredSize s) = some ptr) :
    ∃ st', allocMemblk malloc s st = some st' ∧ Lists st' (grownLists ls ptr s) ∧
      st'.mpoolUsed = st.mpoolUsed ∧ st'.mpoolMaxUsed = st.mpoolMaxUsed ∧
      grownLists ls ptr s (.free s) ≠ [] ∧ Framed st st' ∧ SameNames st' st := by
  have hs0 : ListId.free s ≠ .free 0 := by
    intro e
    cases e
    exact absurd hs (by decide)
  have hout : ∀ x, ptr ≤ x → x < ptr + requiredSize s → Outside st x :=
    fun x hl hr => hf.outside hp hl hr
  have hreq : hdrSize < requiredSize s :=
    Nat.lt_add_of_pos_right (Nat.mul_pos (blockSize_pos s) hi)
  have hnew : ∀ k < mpoolIncrease s,
      (ptr + hdrSize + k * blockSize s, s) ∈ carvedFrom (ptr, s) :=
    fun k hk => mem_carvedFrom.mpr ⟨rfl, k, hk, rfl⟩
  have hptr : Outside st ptr := hout ptr (le_refl _) (by omega)
  have hblk : ∀ k < mpoolIncrease s, Outside st (ptr + hdrSize + k * blockSize s) := by
    intro k hk
    have hr := carvedFrom_range (hnew k hk)
    exact hout _ (le_of_lt hr.1) hr.2
  -- the super header goes to the free list of class zero
  obtain ⟨L₁, he₁, F₁, hsame₁⟩ := addTail_init h.family (h.off hptr.not_header) (.free 0)
  have hoff : ∀ k < mpoolIncrease s, Off Node.head
      (update ls (.free 0) (ls (.free 0) ++ [Node.hdr ptr]))
      (.hdr (ptr + hdrSize + k * blockSize s)) := by
    intro k hk
    have hr := carvedFrom_range (hnew k hk)
    apply off_update (h.off (hblk k hk).not_header)
    simp only [ne_eq, Node.hdr.injEq]
    omega
  obtain ⟨L, flags, he, F, hflags, hflags', hsame⟩ := carve_spec s (mpoolIncrease s) (ptr + hdrSize)
    { st with
      links := L₁, flags := update st.flags ptr superBlockSign,
      mpoolCount := update st.mpoolCount s (st.mpoolCount s + 1),
      superBlocks := (ptr, s) :: st.superBlocks } _ F₁ hoff
  have hlists : update (update ls (.free 0) (ls (.free 0) ++ [Node.hdr ptr]))
      (.free s) (update ls (.free 0) (ls (.free 0) ++ [Node.hdr ptr]) (.free s) ++
        (range (mpoolIncrease s)).map fun k => .hdr (ptr + hdrSize + k * blockSize s)) =
      grownLists ls ptr s := by
    rw [grownLists, update_of_ne hs0, carvedFrom, map_map]
    rfl
  rw [hlists] at F
  refine ⟨_, ?_, h.grow hs flags hout ?_ F ?_ ?_, rfl, rfl, ?_, ?_, ⟨rfl, rfl⟩⟩
  · rw [allocMemblk, if_pos hi, hp]
    simp only [he₁, Option.bind_some]
    exact he
  · intro b hb
    exact hf _ _ hp b hb
  · intro a t ha
    obtain ⟨rfl, k, hk, rfl⟩ := mem_carvedFrom.mp ha
    exact hflags k hk
  · intro a
    by_cases hk : ∃ k < mpoolIncrease s, a = ptr + hdrSize + k * blockSize s
    · obtain ⟨k, hk, rfl⟩ := hk
      exact .inl (hblk k hk)
    · by_cases hap : a = ptr
      · exact .inl (hap ▸ hptr)
      · exact .inr ((hflags' a fun k hlt e => hk ⟨k, hlt, e⟩).trans
          (update_of_ne hap _ _))
  · have hne : carvedFrom (ptr, s) ≠ [] := ne_nil_of_mem (hnew 0 hi)
    simp [grownLists, hne]
  · -- the headers that were written are the super header and those of the new blocks
    refine ⟨subset_cons_self _ _, rfl, ?_⟩
    intro x hx
    have hsuper : x ≠ ptr := fun e => hx (.inr ⟨(ptr, s), mem_cons_self, e⟩)
    have hcell : ∀ k < mpoolIncrease s, x ≠ ptr + hdrSize + k * blockSize s := by
      intro k hk e
      exact hx (.inl ⟨s, mem_carved.mpr ⟨(ptr, s), mem_cons_self, e ▸ hnew k hk⟩⟩)
    have hold : Off Node.head ls (.hdr x) :=
      h.off fun hh => hx (hh.mono (subset_cons_self _ _))
    have hne : Node.hdr x ≠ .hdr ptr := fun e => hsuper (Node.hdr.inj e)
    refine ⟨?_, ?_, rfl, rfl⟩
    · refine (hsame _ (off_update hold hne) ?_).trans (hsame₁ _ hold hne)
      intro k hk e
      exact hcell k hk (Node.hdr.inj e)
    · exact (hflags' x hcell).trans (update_of_ne hsuper _ _)

/-- The rings after a node moved from one list to the front of another. -/
def movedLists (ls : ListId → List Node) (l l' : ListId) (x : Node) : ListId → List Node :=
  Function.update (Function.update ls l ((ls l).erase x)) l' (x :: ls l')

section Move

variable {st : Pool} {ls : ListId → List Node} {s : SizeClass} {x : Node}

variable {l l' : ListId}

theorem movedLists_of_ne {k : ListId} (hl : k ≠ l) (hl' : k ≠ l') :
    movedLists ls l l' x k = ls k := by
  rw [movedLists, update_of_ne hl', update_of_ne hl]

theorem movedLists_source (h : l ≠ l') :
    movedLists ls l l' x l = (ls l).erase x := by
  rw [movedLists, update_of_ne h, update_self]

theorem movedLists_target : movedLists ls l l' x l' = x :: ls l' :=
  update_self ..

theorem erase_append_cons_perm {xs ys : List Node} (hx : x ∈ xs) :
    (xs.erase x ++ x :: ys).Perm (xs ++ ys) :=
  perm_middle.trans ((perm_cons_erase hx).symm.append_right ys)

/-- Rearranging the blocks of one class over its two lists keeps the invariant. -/
theorem Lists.rearrange (h : Lists st ls) (hs : 0 < s.val) {ls' : ListId → List Node}
    {L : Links Node} (F : L.Family Node.head ls')
    (hfree : ∀ t, t ≠ s → ls' (.free t) = ls (.free t))
    (hused : ∀ t, t ≠ s → ls' (.used t) = ls (.used t))
    (hperm : (ls' (.free s) ++ ls' (.used s)).Perm (ls (.free s) ++ ls (.used s)))
    (max : SizeClass → Nat) :
    Lists { st with
      links := L
      mpoolFree := Function.update st.mpoolFree s (ls' (.free s)).length
      mpoolUsed := Function.update st.mpoolUsed s (ls' (.used s)).length
      mpoolMaxUsed := max } ls' := by
  have hs0 : s ≠ 0 := fun e => absurd (e ▸ hs) (by decide)
  refine ⟨F, ?_, ?_, h.count_eq, ?_, ?_, ?_, h.apart, h.flags_eq⟩
  · intro t ht
    by_cases hts : t = s
    · simp [hts]
    · simp [hts, hfree t hts, h.free_len t ht]
  · intro t
    by_cases hts : t = s
    · simp [hts]
    · simp [hts, hused t hts, h.used_len t]
  · intro t ht
    by_cases hts : t = s
    · subst hts
      exact hperm.trans (h.blocks t ht)
    · rw [hfree t hts, hused t hts]
      exact h.blocks t ht
  · rw [hused 0 hs0.symm]
    exact h.used_zero
  · rw [hfree 0 hs0.symm]
    exact h.supers

theorem Lists.take (h : Lists st ls) (hs : 0 < s.val) (hx : x ∈ ls (.free s)) {L : Links Node}
    (F : L.Family Node.head (movedLists ls (.free s) (.used s) x)) (max : SizeClass → Nat) :
    Lists { st with
      links := L
      mpoolFree := Function.update st.mpoolFree s (st.mpoolFree s - 1)
      mpoolUsed := Function.update st.mpoolUsed s (st.mpoolUsed s + 1)
      mpoolMaxUsed := max } (movedLists ls (.free s) (.used s) x) := by
  have hmoved := h.rearrange hs F
    (fun t ht => movedLists_of_ne (by simpa using ht) (by simp))
    (fun t ht => movedLists_of_ne (by simp) (by simpa using ht)) (by
      rw [movedLists_source (by simp), movedLists_target]
      exact erase_append_cons_perm hx) max
  rwa [movedLists_source (by simp), movedLists_target, length_erase_of_mem hx, length_cons,
    ← h.free_len s hs, ← h.used_len s] at hmoved

theorem Lists.give (h : Lists st ls) (hs : 0 < s.val) (hx : x ∈ ls (.used s)) {L : Links Node}
    (F : L.Family Node.head (movedLists ls (.used s) (.free s) x)) :
    Lists { st with
      links := L
      mpoolUsed := Function.update st.mpoolUsed s (st.mpoolUsed s - 1)
      mpoolFree := Function.update st.mpoolFree s (st.mpoolFree s + 1) }
      (movedLists ls (.used s) (.free s) x) := by
  have hmoved := h.rearrange hs F
    (fun t ht => movedLists_of_ne (by simp) (by simpa using ht))
    (fun t ht => movedLists_of_ne (by simpa using ht) (by simp)) (by
      rw [movedLists_source (by simp), movedLists_target]
      exact perm_append_comm.trans ((erase_append_cons_perm hx).trans perm_append_comm))
    st.mpoolMaxUsed
  rwa [movedLists_source (by simp), movedLists_target, length_erase_of_mem hx, length_cons,
    ← h.free_len s hs, ← h.used_len s] at hmoved

end Move

end Wbr1310.Comlib.MemHelper
