import Wbr1310.Comlib.MemHelperBlocks

/-!
# The files that blocks are allocated in

`memblk_tracking` keeps in a header the index of the caller's file in the table `_mh_files`. In a
table that is full the index is the size of the table. A name that `strdup` could not copy leaves
its slot empty, and the slot is given to the next name: `mh_dump_used` then prints a null pointer,
or the name of another file.
-/

namespace Wbr1310.Comlib.MemHelper

open Lib Links List Function Option Nat

/-- A line of `mh_dump_used`. -/
structure DumpLine where
  size : SizeClass
  entry : Nat
  file : List UInt8
  line : Int

/-- The inner loop of `mh_dump_used`; `none` if something is read that is not there. -/
def dumpFrom (st : Pool) (s : SizeClass) : Nat → Node → Option (List DumpLine)
  | 0, _ => none
  | _ + 1, .head l => if l = .used s then some [] else none
  | fuel + 1, .hdr a =>
    if st.file a < maxTrackingFiles then
      (st.mhFiles (st.file a)).bind fun file =>
        ((st.links.next (.hdr a)).bind (dumpFrom st s fuel)).map (⟨s, a, file, st.line a⟩ :: ·)
    else none

/-- The outer loop of `mh_dump_used` over the given classes. -/
def mhDumpUsedFrom (fuel : Nat) (st : Pool) : List SizeClass → Option (List DumpLine)
  | [] => some []
  | s :: classes =>
    ((st.links.next (.head (.used s))).bind (dumpFrom st s fuel)).bind fun lines =>
      (mhDumpUsedFrom fuel st classes).map (lines ++ ·)

def mhDumpUsed (fuel : Nat) (st : Pool) : Option (List DumpLine) :=
  mhDumpUsedFrom fuel st (finRange memPoolsCount)

def Op.Allocates (st : Pool) : Op → Prop
  | .realloc (some p) size => 2 ^ memblkSize (st.flags (memhdr p)) < size
  | .free _ => False
  | _ => True

instance (st : Pool) : DecidablePred (Op.Allocates st)
  | .realloc (some _) _ => inferInstanceAs (Decidable (_ < _))
  | .free _ => inferInstanceAs (Decidable False)
  | .realloc none _ | .malloc _ | .calloc _ _ | .strdup _ => inferInstanceAs (Decidable True)

/-- The file each block was allocated in last, after a new one was returned. -/
def allocatedBy (file : List UInt8) (r : Option Nat) (owner : Nat → List UInt8) :
    Nat → List UInt8 :=
  match r with
  | some p => update owner (memhdr p) file
  | none => owner

/-- The pools that calls which meet a condition lead to, with the pointers returned so far and the
file that each block was allocated in last. `mh_free_all` ends in `mh_init_all`, which begins a new
run. -/
inductive Runs (cond : Call → Op → Pool → Prop) :
    Pool → List Nat → (Nat → List UInt8) → Prop
  | init (st : Pool) : Runs cond (mhInitAll st) [] fun _ => []
  | call {st returned owner} (c : Call) (op : Op) (r : Option Nat) (st' : Pool)
      (h : Runs cond st returned owner) (hop : op.Allowed returned) (hf : Fresh c.malloc st)
      (hcond : cond c op st) (he : exec c op st = some (r, st')) :
      Runs cond st' (r.toList ++ returned)
        (if op.Allocates st then allocatedBy c.file r owner else owner)
  | write {st returned owner} (p off : Nat) (bytes : List UInt8) (h : Runs cond st returned owner)
      (hp : p ∈ returned) (hlen : off + bytes.length ≤ 2 ^ memblkSize (st.flags (memhdr p))) :
      Runs cond (store st (p + off) bytes) returned owner

/-- The header of a used block leads to the name of the file it was allocated in last, and the used
blocks can be dumped. -/
structure NamesFiles (st : Pool) (owner : Nat → List UInt8) : Prop where
  names : ∀ a, Live st a → st.file a < maxTrackingFiles ∧
    st.mhFiles (st.file a) = some (owner a)
  dump : ∀ fuel, (∀ s, st.mpoolUsed s < fuel) → (mhDumpUsed fuel st).isSome

/-- The name of the caller's file is in the table, or there is a free slot and `strdup` copies
it. -/
def HasName (c : Call) (st : Pool) : Prop :=
  ∃ i < maxTrackingFiles, st.mhFiles i = some c.file ∨ st.mhFiles i = none ∧ c.strdupOk = true

def Trackable (c : Call) (op : Op) (st : Pool) : Prop := op.Allocates st → HasName c st

section Names

variable {st st' : Pool} {owner : Nat → List UInt8} {s : SizeClass} {c : Call} {a : Nat}
  {ls : ListId → List Node}

/-- What holds of the table and the headers in a run of such calls. -/
structure Named (st : Pool) (owner : Nat → List UInt8) : Prop where
  noGap : ∀ i j, i ≤ j → st.mhFiles i = none → st.mhFiles j = none
  names : ∀ a, Live st a → st.file a < maxTrackingFiles ∧
    st.mhFiles (st.file a) = some (owner a)

theorem memblkTracking_names (hgap : ∀ i j, i ≤ j → st.mhFiles i = none → st.mhFiles j = none)
    (hname : HasName c st) (a : Nat) :
    let st' := memblkTracking c.strdupOk a c.file c.line st
    (st'.file a < maxTrackingFiles ∧ st'.mhFiles (st'.file a) = some c.file) ∧
      (∀ i j, i ≤ j → st'.mhFiles i = none → st'.mhFiles j = none) ∧
      ∀ i name, st.mhFiles i = some name → st'.mhFiles i = some name := by
  obtain ⟨k, hk, hslot⟩ := hname
  have hsome : ((range maxTrackingFiles).find? fun i =>
      st.mhFiles i == none || st.mhFiles i == some c.file).isSome := by
    refine find?_isSome.mpr ⟨k, mem_range.mpr hk, ?_⟩
    rcases hslot with h | ⟨h, -⟩ <;> simp [h]
  obtain ⟨i, hi⟩ := isSome_iff_exists.mp hsome
  obtain ⟨hfound, hlt, hfirst⟩ := find?_range_eq_some.mp hi
  have hlt := mem_range.mp hlt
  simp only [memblkTracking, hi, getD_some, update_self]
  by_cases hempty : st.mhFiles i = none
  · -- the slot is empty: no later one holds the name, so the name is copied
    have hok : c.strdupOk = true := by
      rcases hslot with h | ⟨-, hok⟩
      · rcases lt_or_ge k i with hki | hik
        · simpa [h] using hfirst k hki
        · exact nomatch h.symm.trans (hgap i k hik hempty)
      · exact hok
    rw [if_pos ⟨hlt, hempty, hok⟩]
    refine ⟨⟨hlt, update_self ..⟩, ?_, ?_⟩
    · intro j j' hle hj
      by_cases hji : j = i
      · rw [hji, update_self] at hj
        cases hj
      · rw [update_of_ne hji] at hj
        have hij : i < j := by
          rcases lt_or_ge j i with hlt' | hge
          · simpa [hj] using hfirst j hlt'
          · omega
        rw [update_of_ne (by omega)]
        exact hgap j j' hle hj
    · intro j name hj
      have hji : j ≠ i := fun e => nomatch (e ▸ hj).symm.trans hempty
      rw [update_of_ne hji, hj]
  · have hheld : st.mhFiles i = some c.file := by simpa [hempty] using hfound
    rw [if_neg fun h => hempty h.2.1]
    exact ⟨⟨hlt, hheld⟩, hgap, fun _ _ h => h⟩

theorem Named.of_same (h : Named st owner) (hsame : SameNames st' st)
    (hlive : ∀ x, Live st' x → Live st x) : Named st' owner := by
  refine ⟨by rw [hsame.mhFiles]; exact h.noGap, ?_⟩
  intro x hx
  rw [hsame.mhFiles, hsame.file]
  exact h.names x (hlive x hx)

variable {r : Option Nat} {fuel : Nat} {returned : List Nat}

section

variable (h : Named st owner) (hl : Lists st ls)

include h hl

theorem Named.mhMalloc {size : Nat} (hf : Fresh c.malloc st) (hname : HasName c st)
    (he : mhMalloc c size st = some (r, st')) : Named st' (allocatedBy c.file r owner) := by
  by_cases hsize : 0 < size
  · obtain ⟨r', st'', ls', he', hl', hg⟩ := mhMalloc_granted c hsize hl hf
    obtain ⟨rfl, rfl⟩ := Prod.mk.inj (some.inj (he.symm.trans he'))
    cases hg with
    | null _ => exact h
    | block a s st₁ _ _ _ hob =>
      cases hob with
      | block _ _ _ _ _ _ hsame _ hused hothers =>
      have hname₁ : HasName c st₁ := by rwa [HasName, hsame.mhFiles]
      obtain ⟨hnew, hgap, hkept⟩ :=
        memblkTracking_names (by rw [hsame.mhFiles]; exact h.noGap) hname₁ a
      refine ⟨hgap, fun x hx => ?_⟩
      rw [allocatedBy, memhdr_memptr]
      by_cases hxa : x = a
      · rw [hxa, update_self]
        exact hnew
      · have hlive : Live st x := by
          obtain ⟨t, ht⟩ := hl'.live_iff.mp hx
          refine hl.live_iff.mpr ⟨t, ?_⟩
          by_cases hts : t = s
          · subst hts
            rw [hused] at ht
            exact (mem_cons.mp ht).resolve_left fun e => hxa (Node.hdr.inj e)
          · exact hothers t hts ▸ ht
        obtain ⟨hlt, hheld⟩ := h.names x hlive
        have hfile : (memblkTracking c.strdupOk a c.file c.line st₁).file x = st.file x :=
          (update_of_ne hxa _ _).trans (congrFun hsame.file x)
        rw [hfile, update_of_ne hxa]
        exact ⟨hlt, hkept _ _ (hsame.mhFiles ▸ hheld)⟩
  · rw [MemHelper.mhMalloc, if_neg hsize] at he
    cases he
    exact h

theorem Named.mhFree {ptr : Option Nat} (hp : ∀ p ∈ ptr, IsBlock st p)
    (he : mhFree fuel ptr st = some st') : Named st' owner := by
  cases ptr with
  | none =>
    cases he
    exact h
  | some p =>
    obtain ⟨a, s, rfl, hc⟩ := hp p rfl
    obtain ⟨hnone, -⟩ | ⟨-, hsame⟩ | ⟨-, st₁, hgive, hl', hgiven⟩ := mhFree_cases hl hc fuel
    · cases hnone.symm.trans he
    · obtain rfl := some.inj (hsame.symm.trans he)
      exact h
    · obtain rfl := some.inj (hgive.symm.trans he)
      refine h.of_same hgiven.names fun x hx => ?_
      obtain ⟨t, ht⟩ := hl'.live_iff.mp hx
      refine hl.live_iff.mpr ⟨t, ?_⟩
      by_cases hts : t = s
      · subst hts
        rw [movedLists_source (by simp)] at ht
        exact mem_of_mem_erase ht
      · rwa [movedLists_of_ne (by simpa using hts) (by simp)] at ht

/-- `mh_realloc` enters the file of the new block if it moves the old one. -/
theorem Named.mhRealloc {ptr : Option Nat} {size : Nat} (hf : Fresh c.malloc st)
    (hp : ∀ p ∈ ptr, IsBlock st p) (ht : Trackable c (.realloc ptr size) st)
    (he : mhRealloc c ptr size st = some (r, st')) :
    Named st' (if (Op.realloc ptr size).Allocates st then allocatedBy c.file r owner
      else owner) := by
  cases ptr with
  | none =>
    rw [if_pos (by exact trivial)]
    rw [MemHelper.mhRealloc] at he
    split at he
    · exact h.mhMalloc hl hf (ht trivial) he
    · cases he
      exact h
  | some p =>
    obtain ⟨a, s, rfl, hc⟩ := hp p rfl
    simp only [MemHelper.mhRealloc, memhdr_memptr, hl.flags_eq a s hc, memblkCheck_flags,
      memblkSize_flags, if_true] at he
    have hmoves : (Op.realloc (some (memptr a)) size).Allocates st ↔ 2 ^ s.val < size := by
      rw [Op.Allocates, memhdr_memptr, hl.flags_eq a s hc, memblkSize_flags]
    by_cases hlt : 2 ^ s.val < size
    · rw [if_pos (hmoves.mpr hlt)]
      rw [if_pos hlt] at he
      obtain ⟨r₁, st₁, ls₁, he₁, hl₁, hm⟩ := mhMalloc_spec c size hl hf
      have hnamed := h.mhMalloc hl hf (ht (hmoves.mpr hlt)) he₁
      have hc₁ : (a, s) ∈ carved st₁ := carved_mono (hm.stepped hl₁).supers hc
      rw [he₁, bind_some] at he
      obtain ⟨st₂, he₂, e⟩ := map_eq_some_iff.mp he
      obtain ⟨rfl, rfl⟩ := Prod.mk.inj e
      have hblock : ∀ p ∈ some (memptr a), IsBlock st₁ p := by
        rintro p ⟨⟩
        exact ⟨a, s, rfl, hc₁⟩
      cases r₁ with
      | none => exact hnamed.mhFree hl₁ hblock he₂
      | some q =>
        have hstored : Named (store st₁ q (load st₁ (memptr a) (2 ^ s.val)))
            (allocatedBy c.file (some q) owner) := ⟨hnamed.noGap, hnamed.names⟩
        exact hstored.mhFree (hl₁.track _ _ _ _) hblock he₂
    · rw [if_neg (mt hmoves.mp hlt)]
      rw [if_neg hlt] at he
      cases he
      exact h

/-- The step lemma: every call keeps the names of the owners. -/
theorem Named.exec {op : Op} (hret : ∀ p ∈ returned, IsBlock st p) (hop : op.Allowed returned)
    (hf : Fresh c.malloc st) (ht : Trackable c op st) (he : exec c op st = some (r, st')) :
    Named st' (if op.Allocates st then allocatedBy c.file r owner else owner) := by
  cases op with
  | malloc size => exact h.mhMalloc hl hf (ht trivial) he
  | calloc nmemb size | strdup string =>
    obtain ⟨⟨r₁, st₁⟩, he₁, e⟩ := map_eq_some_iff.mp he
    obtain ⟨rfl, rfl⟩ := Prod.mk.inj e
    have hnamed := h.mhMalloc hl hf (ht trivial) he₁
    cases r₁ with
    | none => exact hnamed
    | some p => exact ⟨hnamed.noGap, hnamed.names⟩
  | realloc ptr size =>
    refine h.mhRealloc hl hf ?_ ht he
    rintro p ⟨⟩
    exact hret p hop
  | free ptr =>
    obtain ⟨st₁, he₁, e⟩ := map_eq_some_iff.mp he
    obtain ⟨rfl, rfl⟩ := Prod.mk.inj e
    refine h.mhFree hl ?_ he₁
    rintro p ⟨⟩
    exact hret p hop

end

theorem Runs.reach {cond : Call → Op → Pool → Prop} (h : Runs cond st returned owner) :
    ∃ hist, Reach st returned hist := by
  induction h with
  | init st => exact ⟨_, .init st⟩
  | call c op r st' _ hop hf _ he ih =>
    obtain ⟨hist, hreach⟩ := ih
    exact ⟨_, .call c op r st' hreach hop hf he⟩
  | write p off bytes _ hp hlen ih =>
    obtain ⟨hist, hreach⟩ := ih
    exact ⟨_, .write p off bytes hreach hp hlen⟩

/-- The run lemma of the names. -/
theorem Runs.named (h : Runs Trackable st returned owner) :
    Named st owner := by
  induction h with
  | init st =>
    refine ⟨fun _ _ _ _ => rfl, fun a ha => ?_⟩
    obtain ⟨s, hs⟩ := (mhInitAll_lists st).live_iff.mp ha
    cases hs
  | call c op r st' hrun hop hf ht he ih =>
    obtain ⟨hist, hreach⟩ := hrun.reach
    obtain ⟨ls, hl⟩ := hreach.good.lists
    exact ih.exec hl hreach.good.returned hop hf ht he
  | write p off bytes _ _ _ ih => exact ⟨ih.noGap, ih.names⟩

theorem dumpFrom_isSome {xs : List Node} {n : Node} (hpath : st.links.Path n xs (.head (.used s)))
    (hfuel : xs.length < fuel) (hxs : ∀ x ∈ xs, ∃ a, x = .hdr a ∧ st.file a < maxTrackingFiles ∧
      (st.mhFiles (st.file a)).isSome) :
    ((st.links.next n).bind (dumpFrom st s fuel)).isSome := by
  induction xs generalizing n fuel with
  | nil =>
    obtain ⟨fuel, rfl⟩ := Nat.exists_eq_add_one_of_ne_zero (Nat.ne_zero_of_lt hfuel)
    rw [hpath.next_eq]
    simp [dumpFrom]
  | cons x xs ih =>
    obtain ⟨fuel, rfl⟩ := Nat.exists_eq_add_one_of_ne_zero (Nat.ne_zero_of_lt hfuel)
    obtain ⟨a, rfl, hlt, hname⟩ := hxs x mem_cons_self
    obtain ⟨file, hfile⟩ := isSome_iff_exists.mp hname
    have hrest := ih hpath.2 (lt_of_succ_lt_succ hfuel) fun y hy =>
      hxs y (mem_cons_of_mem _ hy)
    rw [hpath.next_eq, headD_cons, bind_some, dumpFrom, if_pos hlt, hfile,
      bind_some, isSome_map]
    exact hrest

theorem Named.dump (h : Named st owner) (hl : Lists st ls) (hfuel : ∀ s, st.mpoolUsed s < fuel) :
    (mhDumpUsed fuel st).isSome := by
  suffices hall : ∀ classes, (mhDumpUsedFrom fuel st classes).isSome from hall _
  intro classes
  induction classes with
  | nil => rfl
  | cons s classes ih =>
    have hpath := (hl.family.ring (.used s)).path
    have hclass := dumpFrom_isSome hpath (hl.used_len s ▸ hfuel s) fun x hx => by
      obtain ⟨a, rfl, -⟩ := hl.used_mem hx
      obtain ⟨hlt, hname⟩ := h.names a (hl.live_iff.mpr ⟨s, hx⟩)
      exact ⟨a, rfl, hlt, isSome_iff_exists.mpr ⟨_, hname⟩⟩
    obtain ⟨lines, hlines⟩ := isSome_iff_exists.mp hclass
    rw [mhDumpUsedFrom, hlines, bind_some, isSome_map]
    exact ih

end Names

/-- As long as every call that asks for a block can enter its file, the headers of the used blocks
lead to the files they were allocated in, and `mh_dump_used` finds a name for each. -/
theorem runs_namesFiles {st : Pool} {returned : List Nat} {owner : Nat → List UInt8}
    (h : Runs Trackable st returned owner) : NamesFiles st owner := by
  obtain ⟨hist, hreach⟩ := h.reach
  obtain ⟨ls, hl⟩ := hreach.good.lists
  exact ⟨h.named.names, fun fuel hfuel => h.named.dump hl hfuel⟩

/-- One allocation of five bytes in a file called `a`. -/
theorem runs_namesFiles_malloc :
    ∃ st owner, Runs Trackable st [1040] owner ∧ owner 1020 = [97] ∧ NamesFiles st owner := by
  let c : Call := ⟨fun _ => some 1000, true, [97], 7, 10⟩
  have hr : (exec c (.malloc 5) (mhInitAll .bss)).map Prod.fst = some (some 1040) := by decide
  obtain ⟨⟨r, st⟩, he, rfl⟩ := map_eq_some_iff.mp hr
  have hrun : Runs Trackable st [1040] _ := .call c (.malloc 5) _ st (.init .bss) trivial
    (fresh_init _ _) (fun _ => ⟨0, by decide, .inr ⟨rfl, rfl⟩⟩) he
  exact ⟨st, _, hrun, rfl, runs_namesFiles hrun⟩

/-- If the first `strdup` fails, the header of the block leads to an empty slot. -/
theorem runs_not_namesFiles :
    ∃ st owner, Runs (fun _ _ _ => True) st [1040] owner ∧ owner 1020 = [97] ∧
      st.mhFiles (st.file 1020) = none ∧ mhDumpUsed 10 st = none ∧ ¬ NamesFiles st owner := by
  let c : Call := ⟨fun _ => some 1000, false, [97], 7, 10⟩
  have hr : (exec c (.malloc 5) (mhInitAll .bss)).map (fun r => (r.1,
      decide (r.2.mhFiles (r.2.file 1020) = none ∧ (mhDumpUsed 10 r.2).isNone ∧
        ∀ s, r.2.mpoolUsed s < 10))) = some (some 1040, true) := by decide +kernel
  obtain ⟨⟨r, st⟩, he, e⟩ := map_eq_some_iff.mp hr
  obtain ⟨rfl, htest⟩ := Prod.mk.inj e
  obtain ⟨hname, hdump, hused⟩ := of_decide_eq_true htest
  refine ⟨st, _, .call c (.malloc 5) _ st (.init .bss) trivial (fresh_init _ _) trivial he, rfl,
    hname, isNone_iff_eq_none.mp hdump, fun h => ?_⟩
  have hsome := h.dump 10 hused
  rw [isNone_iff_eq_none.mp hdump] at hsome
  cases hsome

end Wbr1310.Comlib.MemHelper
